import SaveChip.Proofs.Eeprom.Admissible

/-! # The line in checked arithmetic

A processor computes in words and reads from an array.  Here the line does so as well: a counter
has 32 bits, a difference must not be negative, a byte is shifted by fewer than eight places, and
an index lies within the storage; an operation that breaks one of these rules has no result.

For every operation `X` of the line the theorem `X?_eq` says that on a sound chip the checked
operation has a result, and that it is the one of `X`. -/

namespace SaveChip

/-! ### Words -/

/-- A value that fits a word of 32 bits. -/
def word? (n : Nat) : Option Nat := if n < 0x100000000 then some n else none

/-- A difference that is not negative. -/
def difference? (m n : Nat) : Option Nat := if n ≤ m then some (m - n) else none

/-- A shift that stays within an operand of so many bits. -/
def places? (bits n : Nat) : Option Nat := if n < bits then some n else none

theorem word?_eq {n : Nat} (h : n < 0x100000000) : word? n = some n := if_pos h

theorem difference?_eq {m n : Nat} (h : n ≤ m) : difference? m n = some (m - n) := if_pos h

theorem places?_eq {bits n : Nat} (h : n < bits) : places? bits n = some n := if_pos h

namespace Storage

/-- The byte at an index within the storage. -/
def byte? (s : Storage) (i : Nat) : Option UInt8 := s.bytes[i]?

/-- Sets the byte at an index within the storage. -/
def setByte? (s : Storage) (i : Nat) (v : UInt8) : Option Storage :=
  if i < s.size then some (s.setByte i v) else none

theorem byte?_eq {s : Storage} {i : Nat} (h : i < s.size) : s.byte? i = some (s.byte i) := by
  have hi : i < s.bytes.size := h
  simp [byte?, byte, Array.getD, hi]

theorem setByte?_eq {s : Storage} {i : Nat} (h : i < s.size) (v : UInt8) :
    s.setByte? i v = some (s.setByte i v) := if_pos h

end Storage

namespace Eeprom

variable {e : Eeprom}

/-! ### The checked line -/

/-- The first byte of the block at hand; the shift drops what does not fit its word. -/
def blockStart (e : Eeprom) : Nat := (e.address <<< 3).toNat

/-- The byte and the place in it of data bit `n`. -/
def bitLocation? (e : Eeprom) (n : Nat) : Option (Nat × Nat) := do
  let i ← difference? (e.blockStart + 7) (n / 8)
  let place ← difference? 7 (n % 8)
  let place ← places? 8 place
  pure (i, place)

def decode? (e : Eeprom) (now : UInt64) (bit : Bool) : Option Eeprom :=
  let e := e.settle now
  if !e.ready then
    pure e
  else if e.received = 0 then
    pure { e with address := 0, received := 1, command := bit.toNat }
  else do
    let command ← word? (2 * e.command + bit.toNat)
    pure { e with address := 0, received := 0, command := command, phase := .ofCommand command }

def shiftAddress? (e : Eeprom) (reading bit : Bool) : Option Eeprom := do
  let total ← word? (e.addressPhaseBits reading)
  if total ≤ e.received then
    pure e
  else
    let received ← word? (e.received + 1)
    if received = total then
      pure { e with address := e.finalAddress bit, received := 0, phase := dataPhase reading }
    else
      pure { e with address := e.shiftedAddress bit, received := received }

/-- Data bit `n` of the block at hand. -/
def fetchBit? (e : Eeprom) (n : Nat) : Option Bool := do
  let (i, place) ← e.bitLocation? n
  let byte ← e.storage.byte? i
  pure (bitAt byte place)

/-- The storage with data bit `n` of the block at hand set. -/
def storeBit? (e : Eeprom) (n : Nat) (bit : Bool) : Option Storage := do
  let (i, place) ← e.bitLocation? n
  let byte ← e.storage.byte? i
  e.storage.setByte? i (withBit byte place bit)

def shiftIn? (e : Eeprom) (now : UInt64) (bit : Bool) : Option Eeprom := do
  let storage ←
    if e.shifted < blockBits then e.storeBit? e.shifted bit else pure e.storage
  let shifted ← word? (e.shifted + 1)
  if shifted = blockBits + 1 then
    pure
      { e with
        storage := storage
        shifted := 0
        phase := .idle
        ready := false
        deadline := busyUntil now
        dirty := true }
  else
    pure { e with storage := storage, shifted := shifted }

def dataBit? (e : Eeprom) : Option Bool :=
  if e.shifted < leadBits then
    pure false
  else do
    let n ← difference? e.shifted leadBits
    e.fetchBit? n

def shiftOut? (e : Eeprom) : Option Eeprom := do
  let shifted ← word? (e.shifted + 1)
  if shifted = leadBits + blockBits then
    pure { e with shifted := 0, phase := .idle, ready := true }
  else
    pure { e with shifted := shifted }

def clockIn? (e : Eeprom) (now : UInt64) (bit : Bool) : Option Eeprom :=
  match e.phase with
  | .idle => e.decode? now bit
  | .writeAddress => e.shiftAddress? false bit
  | .readAddress => e.shiftAddress? true bit
  | .writeData => e.shiftIn? now bit
  | .readData | .invalid => pure e

/-- The level of the data line, and the chip after the game has read it. -/
def clockOut? (e : Eeprom) (now : UInt64) : Option (Bool × Eeprom) :=
  match e.phase with
  | .idle => pure ((e.settle now).ready, e.settle now)
  | .readData => do
      let bit ← e.dataBit?
      let e ← e.shiftOut?
      pure (bit, e)
  | .writeData | .invalid | .writeAddress | .readAddress => pure (false, e)

/-! ### The checks pass on a sound chip -/

/-- A block address that is final names a block within the storage. -/
theorem block_fits (h : e.Sound) (hp : e.phase.transfersData = true) :
    8 * e.block + 8 ≤ e.storage.size := by
  have haddress := (Registers.admissible_iff_bounds.mp h.registers).1 hp
  rw [UInt32.le_iff_toNat_le] at haddress
  have hblocks := e.capacity.blocks_fit
  rw [h.size, block]
  omega

theorem blockStart_eq (h : e.Sound) (hp : e.phase.transfersData = true) :
    e.blockStart = 8 * e.block := by
  have haddress := (Registers.admissible_iff_bounds.mp h.registers).1 hp
  rw [UInt32.le_iff_toNat_le] at haddress
  have hmask : e.capacity.addressMask.toNat ≤ 0x3FF := by cases e.capacity <;> decide
  rw [blockStart, block, UInt32.toNat_shiftLeft]
  simp [Nat.shiftLeft_eq]
  omega

theorem bitLocation?_eq (h : e.Sound) (hp : e.phase.transfersData = true) {n : Nat}
    (hn : n < blockBits) :
    e.bitLocation? n = some (Storage.byteIndex e.block n, Storage.bitPlace n) := by
  unfold blockBits at hn
  have hindex : 8 * e.block + 7 - n / 8 = Storage.byteIndex e.block n := by
    unfold Storage.byteIndex
    omega
  rw [bitLocation?, blockStart_eq h hp, difference?_eq (by omega), difference?_eq (by omega)]
  simp only [Option.bind_eq_bind, Option.bind_some]
  rw [places?_eq (by omega), hindex]
  rfl

theorem byteIndex_lt (h : e.Sound) (hp : e.phase.transfersData = true) (n : Nat) :
    Storage.byteIndex e.block n < e.storage.size := by
  have hfits := block_fits h hp
  unfold Storage.byteIndex
  omega

theorem fetchBit?_eq (h : e.Sound) (hp : e.phase.transfersData = true) {n : Nat}
    (hn : n < blockBits) : e.fetchBit? n = some (e.storage.bit e.block n) := by
  have hindex := byteIndex_lt h hp n
  rw [fetchBit?, bitLocation?_eq h hp hn]
  simp only [Option.bind_eq_bind, Option.bind_some]
  rw [Storage.byte?_eq hindex]
  rfl

theorem storeBit?_eq (h : e.Sound) (hp : e.phase.transfersData = true) {n : Nat}
    (hn : n < blockBits) (bit : Bool) :
    e.storeBit? n bit = some (e.storage.setBit e.block n bit) := by
  have hindex := byteIndex_lt h hp n
  rw [storeBit?, bitLocation?_eq h hp hn]
  simp only [Option.bind_eq_bind, Option.bind_some]
  rw [Storage.byte?_eq hindex]
  simp only [Option.bind_some]
  rw [Storage.setByte?_eq hindex]
  rfl

theorem decode?_eq (h : e.Sound) (hp : e.phase = .idle) (now : UInt64) (bit : Bool) :
    e.decode? now bit = some (e.decode now bit) := by
  obtain ⟨hreceived, -, hcommand⟩ := h.inPhase hp
  have hbit : bit.toNat ≤ 1 := Bool.toNat_le bit
  unfold decode? decode
  rw [settle_eq]
  dsimp only
  split
  · rfl
  · split
    · rfl
    · have hlast := hcommand (by omega)
      rw [word?_eq (by omega)]
      rfl

theorem shiftAddress?_eq (h : e.Sound) {reading : Bool} (hp : e.phase = addressPhase reading)
    (bit : Bool) : e.shiftAddress? reading bit = some (e.shiftAddress reading bit) := by
  have hlt := received_lt_addressPhaseBits h hp
  have htotal : e.addressPhaseBits reading ≤ 15 := by
    unfold addressPhaseBits
    cases e.capacity <;> cases reading <;> decide
  unfold shiftAddress? shiftAddress
  rw [word?_eq (by omega)]
  simp only [Option.bind_eq_bind, Option.bind_some]
  rw [if_neg (by omega), if_neg (by omega), word?_eq (by omega)]
  by_cases hfinal : e.received + 1 = e.addressPhaseBits reading
  · rw [if_pos hfinal]
    simp only [Option.bind_some]
    rw [if_pos hfinal]
    rfl
  · rw [if_neg hfinal]
    simp only [Option.bind_some]
    rw [if_neg hfinal]
    rfl

theorem shiftIn?_eq (h : e.Sound) (hp : e.phase = .writeData) (now : UInt64) (bit : Bool) :
    e.shiftIn? now bit = some (e.shiftIn now bit) := by
  obtain ⟨-, hshifted, -⟩ := h.inPhase hp
  have htransfer : e.phase.transfersData = true := by rw [hp]; rfl
  have hlast : e.shifted + 1 = blockBits + 1 ↔ e.shifted = blockBits := by omega
  unfold shiftIn? shiftIn
  rw [word?_eq (by unfold blockBits at hshifted; omega)]
  by_cases hdata : e.shifted < blockBits
  · rw [if_pos hdata, if_pos hdata, storeBit?_eq h htransfer hdata]
    simp only [Option.bind_eq_bind, Option.bind_some, hlast]
    split <;> rfl
  · rw [if_neg hdata, if_neg hdata]
    simp only [Option.bind_eq_bind, Option.bind_some, Option.pure_def, hlast]
    split <;> rfl

theorem dataBit?_eq (h : e.Sound) (hp : e.phase = .readData) : e.dataBit? = some e.dataBit := by
  obtain ⟨-, hshifted, -⟩ := h.inPhase hp
  have htransfer : e.phase.transfersData = true := by rw [hp]; rfl
  unfold dataBit? dataBit
  split
  · rfl
  · rw [difference?_eq (by omega)]
    simp only [Option.bind_eq_bind, Option.bind_some]
    exact fetchBit?_eq h htransfer (by omega)

theorem shiftOut?_eq (h : e.Sound) (hp : e.phase = .readData) : e.shiftOut? = some e.shiftOut := by
  obtain ⟨-, hshifted, -⟩ := h.inPhase hp
  unfold leadBits blockBits at hshifted
  unfold shiftOut? shiftOut
  rw [word?_eq (by omega)]
  simp only [Option.bind_eq_bind, Option.bind_some]
  split <;> rfl

theorem clockIn?_eq (h : e.Sound) (now : UInt64) (bit : Bool) :
    e.clockIn? now bit = some (e.clockIn now bit) := by
  unfold clockIn? clockIn
  cases hp : e.phase with
  | idle => exact decode?_eq h hp now bit
  | writeAddress => exact shiftAddress?_eq h (show e.phase = addressPhase false from hp) bit
  | readAddress => exact shiftAddress?_eq h (show e.phase = addressPhase true from hp) bit
  | writeData => exact shiftIn?_eq h hp now bit
  | readData | invalid => rfl

theorem clockOut?_eq (h : e.Sound) (now : UInt64) :
    e.clockOut? now = some (e.output now, e.clockOut now) := by
  unfold clockOut? output clockOut
  cases hp : e.phase with
  | readData =>
      dsimp only
      rw [dataBit?_eq h hp, shiftOut?_eq h hp]
      rfl
  | idle | writeData | invalid | writeAddress | readAddress => rfl

end Eeprom

end SaveChip
