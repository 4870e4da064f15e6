import SaveChip.Eeprom.Serial

/-! # What the registers of the EEPROM hold

Each phase bounds the two bit counters in its own way, and the phases that move data hold a
block address within the storage.  `Registers.Admissible` collects these bounds, and an
`Eeprom.Sound` chip has admissible registers over a storage of the right size.

A fresh chip is sound, and whatever the line or the host does to a sound chip leaves it sound.
The checks on a snapshot header ask for the same bounds: what they let through is admissible
(`admissible_of_ofHeader?`), and they turn no admissible registers away (`ofHeader?_toHeader`). -/

namespace SaveChip

namespace Registers

variable {c : Capacity} {r : Registers}

/-- What holds of the counters while a phase lasts, and of the address where it is final. -/
def InPhase (c : Capacity) (r : Registers) : Phase → Prop
  | .idle => r.received ≤ 1 ∧ r.shifted = 0 ∧ (r.received = 1 → r.command ≤ 1)
  | .writeAddress => r.received < c.addressBits ∧ r.shifted = 0
  | .readAddress => r.received ≤ c.addressBits ∧ r.shifted = 0
  | .writeData => r.received = 0 ∧ r.shifted ≤ blockBits ∧ r.address ≤ c.addressMask
  | .readData => r.received = 0 ∧ r.shifted < leadBits + blockBits ∧ r.address ≤ c.addressMask
  | .invalid => r.received = 0 ∧ r.shifted = 0

instance (c : Capacity) (r : Registers) : (p : Phase) → Decidable (r.InPhase c p)
  | .idle | .writeAddress | .readAddress | .writeData | .readData | .invalid =>
      inferInstanceAs (Decidable (_ ∧ _))

/-- The registers that occur between two requests. -/
def Admissible (c : Capacity) (r : Registers) : Prop := r.command ≤ 3 ∧ r.InPhase c r.phase

instance (c : Capacity) (r : Registers) : Decidable (r.Admissible c) :=
  inferInstanceAs (Decidable (_ ∧ _))

/-! ### The checks on a header -/

/-- The bounds that a header is checked against are those of its phase. -/
theorem admissible_iff_bounds :
    r.Admissible c ↔ (r.phase.transfersData = true → r.address ≤ c.addressMask) ∧
      r.received ≤ r.phase.maxReceived c ∧ r.shifted ≤ r.phase.maxShifted ∧
      r.command ≤ r.phase.maxCommand r.received := by
  have hw : 0 < c.addressBits := by cases c <;> decide
  unfold Admissible
  cases r.phase <;>
    simp only [InPhase, Phase.transfersData, Phase.maxReceived, Phase.maxShifted,
      Phase.maxCommand, leadBits, blockBits]
  case writeData | readData => simp; grind
  case idle => split <;> simp <;> omega
  case writeAddress | readAddress | invalid => simp; omega

/-- A header that passes its checks records admissible registers. -/
theorem admissible_of_ofHeader? {h : Header} (hr : ofHeader? c h = .ok r) : r.Admissible c := by
  unfold ofHeader? at hr
  split at hr
  · cases hr
  · split at hr
    · cases hr
    · split at hr
      · cases hr
      · split at hr
        · cases hr
        · rename_i haddress hbounds
          cases hr
          rw [admissible_iff_bounds]
          simp only [not_or, Nat.not_lt] at hbounds
          refine ⟨fun htransfer => ?_, hbounds⟩
          exact UInt32.not_lt.mp fun hlt => haddress ⟨htransfer, hlt⟩

/-- Admissible registers come back from the header that records them. -/
theorem ofHeader?_toHeader (h : r.Admissible c) : ofHeader? c (r.toHeader c) = .ok r := by
  obtain ⟨haddress, hreceived, hshifted, hcommand⟩ := admissible_iff_bounds.mp h
  have hmaxReceived : r.phase.maxReceived c ≤ 14 := by
    cases c <;> cases r.phase <;> decide
  have hmaxShifted : r.phase.maxShifted ≤ 67 := by cases r.phase <;> decide
  have hreceived' : (UInt32.ofNat r.received).toNat = r.received :=
    UInt32.toNat_ofNat_of_lt' (by simp only [UInt32.size]; omega)
  have hshifted' : (UInt32.ofNat r.shifted).toNat = r.shifted :=
    UInt32.toNat_ofNat_of_lt' (by simp only [UInt32.size]; omega)
  have hcommand' : (UInt32.ofNat r.command).toNat = r.command :=
    UInt32.toNat_ofNat_of_lt' (by have := h.1; simp only [UInt32.size]; omega)
  have hblock : ¬(r.phase.transfersData = true ∧ c.addressMask < r.address) := by
    rintro ⟨htransfer, hlt⟩
    exact UInt32.not_lt.mpr (haddress htransfer) hlt
  simp only [ofHeader?, toHeader, Phase.ofCode?_code, hreceived', hshifted', hcommand']
  rw [if_neg (by simp), if_neg hblock, if_neg (by omega)]

end Registers

/-! ### Sound chips -/

/-- Admissible registers over a storage of the right size. -/
structure Eeprom.Sound (e : Eeprom) : Prop where
  size : e.storage.size = e.capacity.bytes
  registers : e.toRegisters.Admissible e.capacity

namespace Eeprom

variable {e : Eeprom}

theorem Sound.inPhase (h : e.Sound) {p : Phase} (hp : e.phase = p) : e.InPhase e.capacity p :=
  hp ▸ h.registers.2

theorem sound_fresh (c : Capacity) : (fresh c).Sound where
  size := by simp [fresh]
  registers := by cases c <;> decide

theorem Sound.reset (h : e.Sound) : e.reset.Sound where
  size := h.size
  registers := ⟨Nat.zero_le _, Nat.zero_le _, rfl, fun _ => Nat.zero_le _⟩

theorem Sound.loadFile (h : e.Sound) (bs : List UInt8) : (e.loadFile bs).Sound where
  size := by simp [Eeprom.loadFile, h.size]
  registers := h.registers

/-! ### The line keeps a chip sound -/

/-- Settling touches the ready flag alone. -/
theorem settle_eq (e : Eeprom) (now : UInt64) :
    e.settle now = { e with ready := e.ready || decide (e.deadline ≤ now) } := by
  unfold settle
  by_cases h : e.deadline ≤ now
  · rw [if_pos h, decide_eq_true h, Bool.or_true]
  · rw [if_neg h, decide_eq_false h, Bool.or_false]

theorem Sound.settle (h : e.Sound) (now : UInt64) : (e.settle now).Sound := by
  rw [settle_eq]
  exact ⟨h.size, h.registers⟩

/-- The phase in which an address is received. -/
def addressPhase (reading : Bool) : Phase := if reading then .readAddress else .writeAddress

theorem received_lt_addressPhaseBits (h : e.Sound) {reading : Bool}
    (hp : e.phase = addressPhase reading) : e.received < e.addressPhaseBits reading := by
  cases reading with
  | false => exact (h.inPhase hp).1
  | true => exact Nat.lt_succ_of_le (h.inPhase hp).1

theorem finalAddress_le (e : Eeprom) (bit : Bool) : e.finalAddress bit ≤ e.capacity.addressMask := by
  rw [UInt32.le_iff_toNat_le, finalAddress, UInt32.toNat_and]
  exact Nat.and_le_right

/-- Every phase that a command opens starts with clear counters. -/
theorem inPhase_ofCommand (c : Capacity) {r : Registers} (hreceived : r.received = 0)
    (hshifted : r.shifted = 0) (command : Nat) : r.InPhase c (.ofCommand command) := by
  have hw : 0 < c.addressBits := by cases c <;> decide
  unfold Phase.ofCommand
  split <;> simp [Registers.InPhase, hreceived, hshifted, hw]

theorem Sound.decode (h : e.Sound) (hp : e.phase = .idle) (now : UInt64) (bit : Bool) :
    (e.decode now bit).Sound := by
  obtain ⟨hreceived, hshifted, hcommand⟩ := h.inPhase hp
  have hbit : bit.toNat ≤ 1 := Bool.toNat_le bit
  unfold Eeprom.decode
  rw [settle_eq]
  dsimp only
  split
  · exact ⟨h.size, h.registers⟩
  · split
    · refine ⟨h.size, by simp; omega, ?_⟩
      simp [Registers.InPhase, hp, hshifted, hbit]
    · have hlast := hcommand (by omega)
      refine ⟨h.size, by simp; omega, ?_⟩
      apply inPhase_ofCommand
      · rfl
      · exact hshifted

theorem Sound.shiftAddress (h : e.Sound) {reading : Bool} (hp : e.phase = addressPhase reading)
    (bit : Bool) : (e.shiftAddress reading bit).Sound := by
  have hlt := received_lt_addressPhaseBits h hp
  have hshifted : e.shifted = 0 := by cases reading <;> exact (h.inPhase hp).2
  by_cases hfinal : e.received + 1 = e.addressPhaseBits reading
  · have haddress := finalAddress_le e bit
    rw [shiftAddress_last hfinal]
    refine ⟨h.size, h.registers.1, ?_⟩
    cases reading with
    | false => exact ⟨rfl, Nat.le_trans (Nat.le_of_eq hshifted) (Nat.zero_le _), haddress⟩
    | true => exact ⟨rfl, Nat.lt_of_le_of_lt (Nat.le_of_eq hshifted) (by decide), haddress⟩
  · have hmore : e.received + 1 < e.addressPhaseBits reading := by omega
    rw [shiftAddress_more hmore]
    refine ⟨h.size, h.registers.1, ?_⟩
    simp only [hp]
    cases reading with
    | false => exact ⟨hmore, hshifted⟩
    | true => exact ⟨Nat.le_of_lt_succ hmore, hshifted⟩

theorem Sound.shiftIn (h : e.Sound) (hp : e.phase = .writeData) (now : UInt64) (bit : Bool) :
    (e.shiftIn now bit).Sound := by
  obtain ⟨hreceived, hshifted, haddress⟩ := h.inPhase hp
  by_cases hlast : e.shifted = blockBits
  · rw [shiftIn_last hlast]
    refine ⟨h.size, h.registers.1, ?_⟩
    simp [Registers.InPhase, hreceived]
  · rw [shiftIn_more hlast]
    refine ⟨?_, h.registers.1, ?_⟩
    · dsimp only
      split
      · rw [Storage.size_setBit, h.size]
      · exact h.size
    · simp only [hp, Registers.InPhase]
      exact ⟨hreceived, by omega, haddress⟩

theorem Sound.shiftOut (h : e.Sound) (hp : e.phase = .readData) : e.shiftOut.Sound := by
  obtain ⟨hreceived, hshifted, haddress⟩ := h.inPhase hp
  by_cases hlast : e.shifted + 1 = leadBits + blockBits
  · rw [shiftOut_last hlast]
    refine ⟨h.size, h.registers.1, ?_⟩
    simp [Registers.InPhase, hreceived]
  · rw [shiftOut_more hlast]
    refine ⟨h.size, h.registers.1, ?_⟩
    simp only [hp, Registers.InPhase]
    exact ⟨hreceived, by omega, haddress⟩

theorem Sound.clockIn (h : e.Sound) (now : UInt64) (bit : Bool) : (e.clockIn now bit).Sound := by
  unfold Eeprom.clockIn
  cases hp : e.phase with
  | idle => exact h.decode hp now bit
  | writeAddress => exact h.shiftAddress (show e.phase = addressPhase false from hp) bit
  | readAddress => exact h.shiftAddress (show e.phase = addressPhase true from hp) bit
  | writeData => exact h.shiftIn hp now bit
  | readData | invalid => exact h

theorem Sound.clockOut (h : e.Sound) (now : UInt64) : (e.clockOut now).Sound := by
  unfold Eeprom.clockOut
  cases hp : e.phase with
  | idle => exact h.settle now
  | readData => exact h.shiftOut hp
  | writeData | invalid | writeAddress | readAddress => exact h

/-! ### What the line changes -/

theorem clockIn_writeData (hp : e.phase = .writeData) (now : UInt64) (bit : Bool) :
    e.clockIn now bit = e.shiftIn now bit := by
  rw [clockIn, hp]

/-- A bit that is no data changes the registers, and a ready chip stays ready. -/
theorem clockIn_registers (hp : e.phase ≠ .writeData) (now : UInt64) (bit : Bool) :
    ∃ regs : Registers, e.clockIn now bit = { e with toRegisters := regs } ∧
      (e.ready = true → regs.ready = true) := by
  unfold clockIn
  cases hphase : e.phase with
  | idle =>
      have hsettled : e.ready = true → (e.ready || decide (e.deadline ≤ now)) = true := by
        intro hready
        rw [hready, Bool.true_or]
      dsimp only
      unfold decode
      rw [settle_eq]
      dsimp only
      split
      · exact ⟨_, rfl, hsettled⟩
      · split
        · exact ⟨_, rfl, hsettled⟩
        · exact ⟨_, rfl, hsettled⟩
  | writeAddress | readAddress =>
      dsimp only
      unfold shiftAddress
      split
      · exact ⟨e.toRegisters, rfl, id⟩
      · split
        · exact ⟨_, rfl, id⟩
        · exact ⟨_, rfl, id⟩
  | writeData => exact absurd hphase hp
  | readData | invalid => exact ⟨e.toRegisters, rfl, id⟩

/-- Reading the line changes the registers at most, and a ready chip stays ready. -/
theorem clockOut_registers (e : Eeprom) (now : UInt64) :
    ∃ regs : Registers, e.clockOut now = { e with toRegisters := regs } ∧
      (e.ready = true → regs.ready = true) := by
  unfold clockOut
  cases e.phase with
  | idle =>
      dsimp only
      rw [settle_eq]
      refine ⟨_, rfl, ?_⟩
      intro hready
      rw [hready, Bool.true_or]
  | readData =>
      dsimp only
      unfold shiftOut
      split
      · exact ⟨_, rfl, fun _ => rfl⟩
      · exact ⟨_, rfl, id⟩
  | writeData | invalid | writeAddress | readAddress => exact ⟨e.toRegisters, rfl, id⟩

@[simp] theorem capacity_clockIn (e : Eeprom) (now : UInt64) (bit : Bool) :
    (e.clockIn now bit).capacity = e.capacity := by
  by_cases hp : e.phase = .writeData
  · rw [clockIn_writeData hp]
    by_cases hlast : e.shifted = blockBits
    · rw [shiftIn_last hlast]
    · rw [shiftIn_more hlast]
  · obtain ⟨regs, hsame, -⟩ := clockIn_registers hp now bit
    rw [hsame]

@[simp] theorem capacity_clockOut (e : Eeprom) (now : UInt64) :
    (e.clockOut now).capacity = e.capacity := by
  obtain ⟨regs, hsame, -⟩ := e.clockOut_registers now
  rw [hsame]

end Eeprom

end SaveChip
