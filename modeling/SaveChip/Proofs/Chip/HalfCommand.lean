import SaveChip.Proofs.Chip.BusyWindow
import SaveChip.Proofs.Chip.WordArray
import SaveChip.Proofs.Snapshot.Restore

/-! # A busy chip holds no half command

A chip takes a command bit only when it is ready, and it turns busy only with the end of a write,
between two commands.  So an idle chip that is not ready waits for a whole command (`Whole`).  The
line keeps it so, whatever is sent and whenever (`Whole.clockIn`, `Whole.clockOut`), and so does a
reset.

A snapshot need not: the checks on its header bound each counter by the phase and do not look at the
ready flag.  A header of an idle chip that is not ready and has received one bit (`Header.Halved`)
passes them, and the chip that takes it over mistakes the next bit it accepts for the second one of a
command (`halved_restored`). -/

namespace SaveChip

/-- The header of an idle chip that is not ready and has received part of a command. -/
def Header.Halved (h : Header) : Prop :=
  h.phase = Phase.idle.code ∧ h.ready = false ∧ h.received ≠ 0

instance (h : Header) : Decidable h.Halved := inferInstanceAs (Decidable (_ ∧ _))

namespace Eeprom

variable {e : Eeprom} {now : UInt64}

/-- A chip that is idle and not ready has received no part of a command. -/
def Whole (e : Eeprom) : Prop := e.phase = .idle → e.ready = false → e.received = 0

theorem whole_of_phase (hp : e.phase ≠ .idle) : e.Whole := fun hidle => absurd hidle hp

theorem whole_of_ready (hready : e.ready = true) : e.Whole :=
  fun _ hbusy => Bool.noConfusion (hready.symm.trans hbusy)

theorem whole_of_received (hreceived : e.received = 0) : e.Whole := fun _ _ => hreceived

theorem Whole.busy (h : e.Whole) (hp : e.phase = .idle) (hready : e.ready = false) : e.Busy where
  phase := hp
  received := h hp hready
  unready := hready

/-! ### The line keeps commands whole -/

theorem Whole.settle (h : e.Whole) (now : UInt64) : (e.settle now).Whole := by
  rw [settle_eq]
  intro hp hready
  obtain ⟨hbusy, -⟩ := Bool.or_eq_false_iff.mp hready
  exact h hp hbusy

theorem Whole.clockOut (h : e.Whole) (now : UInt64) : (e.clockOut now).Whole := by
  unfold Eeprom.clockOut
  cases hp : e.phase with
  | idle => exact h.settle now
  | readData =>
      by_cases hlast : e.shifted + 1 = leadBits + blockBits
      · rw [shiftOut_last hlast]
        exact whole_of_ready rfl
      · rw [shiftOut_more hlast]
        apply whole_of_phase
        simp [hp]
  | writeData | invalid | writeAddress | readAddress => exact h

/-- A command bit is taken by a chip that is ready. -/
theorem Whole.decode (h : e.Whole) (now : UInt64) (bit : Bool) : (e.decode now bit).Whole := by
  have hsettled := h.settle now
  unfold Eeprom.decode
  dsimp only
  split
  · exact hsettled
  · rename_i hready
    split
    · apply whole_of_ready
      simpa using hready
    · exact whole_of_received rfl

theorem whole_shiftAddress {reading : Bool} (hp : e.phase = addressPhase reading) (bit : Bool) :
    (e.shiftAddress reading bit).Whole := by
  unfold shiftAddress
  split
  · apply whole_of_phase
    cases reading <;> simp [hp, addressPhase]
  · split
    · exact whole_of_received rfl
    · apply whole_of_phase
      cases reading <;> simp [hp, addressPhase]

/-- The bit that makes the chip busy finds no command bits. -/
theorem Sound.whole_shiftIn (h : e.Sound) (hp : e.phase = .writeData) (now : UInt64) (bit : Bool) :
    (e.shiftIn now bit).Whole := by
  by_cases hlast : e.shifted = blockBits
  · rw [shiftIn_last hlast]
    exact whole_of_received (h.inPhase hp).1
  · rw [shiftIn_more hlast]
    apply whole_of_phase
    simp [hp]

theorem Whole.clockIn (hw : e.Whole) (h : e.Sound) (now : UInt64) (bit : Bool) :
    (e.clockIn now bit).Whole := by
  unfold Eeprom.clockIn
  cases hp : e.phase with
  | idle => exact hw.decode now bit
  | writeAddress => exact whole_shiftAddress (show e.phase = addressPhase false from hp) bit
  | readAddress => exact whole_shiftAddress (show e.phase = addressPhase true from hp) bit
  | writeData => exact h.whole_shiftIn hp now bit
  | readData | invalid => exact hw

/-! ### The first bit after the busy window -/

/-- Polls let a resting chip notice that it is ready, and do nothing else. -/
theorem Resting.receive (h : e.Resting) (polls : List UInt64) :
    (e.receive polls).2 = { e with ready := e.ready || polls.any fun now => e.deadline ≤ now } := by
  induction polls generalizing e with
  | nil => simp [Eeprom.receive]
  | cons now polls ih =>
      have hstep : e.clockOut now = e.settle now := by rw [Eeprom.clockOut, h.phase]
      rw [settle_eq] at hstep
      have hrest := ih (e := e.clockOut now) (by rw [hstep]; exact ⟨h.phase, h.received⟩)
      rw [Eeprom.receive, hrest, hstep, List.any_cons, ← Bool.or_assoc]

/-- However often a resting chip has been polled, two bits make up a command. -/
theorem Resting.send_polled (h : e.Resting) {polls : List UInt64} {t : UInt64}
    (hdue : e.deadline ≤ t ∨ ∃ now ∈ polls, e.deadline ≤ now) (t' : UInt64) (b b' : Bool) :
    (e.receive polls).2.send [(t, b), (t', b')] =
      { e with
        ready := true
        address := 0
        received := 0
        command := 2 * b.toNat + b'.toNat
        phase := .ofCommand (2 * b.toNat + b'.toNat) } := by
  rw [h.receive]
  apply send_command
    (e := { e with ready := e.ready || polls.any fun now => e.deadline ≤ now })
    ⟨h.phase, h.received⟩
  obtain hlate | ⟨now, hnow, hlate⟩ := hdue
  · exact .inr hlate
  · have hnoticed : (polls.any fun now => e.deadline ≤ now) = true :=
      List.any_eq_true.mpr ⟨now, hnow, decide_eq_true hlate⟩
    exact .inl (by rw [hnoticed, Bool.or_true])

end Eeprom

/-! ### Requests and runs -/

namespace Chip

variable {c : Chip} {e : Eeprom} {request : Request}

/-- A chip without registers has nothing to hold. -/
def Whole : Chip → Prop
  | eeprom e => e.Whole
  | absent | sram _ => True

theorem whole_of_kind (h : ∀ capacity, c.kind ≠ .eeprom capacity) : c.Whole := by
  cases c with
  | absent | sram => trivial
  | eeprom e => exact absurd rfl (h e.capacity)

/-- The request brings in a snapshot of a busy chip with half a command. -/
def TakesHalf (c : Chip) : Request → Prop
  | .restore bs => (c.restore bs).1 = .loaded ∧ (Header.ofBytes bs).Halved
  | .loadFrom buffer => (c.load (.ofBuffer buffer)).1 = .loaded ∧ (Header.ofBytes buffer).Halved
  | _ => False

theorem whole_load {bs : List UInt8} (h : ((eeprom e).load (.ofBuffer bs)).1 = .loaded)
    (hwhole : ¬(Header.ofBytes bs).Halved) : ((eeprom e).load (.ofBuffer bs)).2.1.Whole := by
  obtain ⟨r, storage, hregs, hload⟩ := load_eeprom_of_loaded h
  obtain ⟨rfl, hcode⟩ := Registers.eq_of_ofHeader? hregs
  rw [hload]
  intro hp hready
  apply Classical.byContradiction
  intro hreceived
  apply hwhole
  refine ⟨?_, hready, ?_⟩
  · rw [← hcode]
    exact congrArg Phase.code hp
  · intro hzero
    exact hreceived (congrArg UInt32.toNat hzero)

theorem Whole.respond (hw : (eeprom e).Whole) (h : e.Sound) (hkeeps : ¬(eeprom e).TakesHalf request)
    (now : UInt64) : ((eeprom e).respond now request).2.Whole := by
  cases request with
  | readBit => exact Eeprom.Whole.clockOut hw now
  | writeBit value => exact Eeprom.Whole.clockIn hw h now _
  | reset => exact Eeprom.whole_of_received rfl
  | restore bs =>
      by_cases hloaded : ((eeprom e).restore bs).1 = .loaded
      · obtain ⟨hload, hsame⟩ := restore_of_loaded hloaded
        rw [Chip.respond, hsame]
        exact whole_load hload fun hhalved => hkeeps ⟨hloaded, hhalved⟩
      · rw [Chip.respond, restore_eq_self hloaded]
        exact hw
  | loadFrom buffer =>
      by_cases hloaded : ((eeprom e).load (.ofBuffer buffer)).1 = .loaded
      · exact whole_load hloaded fun hhalved => hkeeps ⟨hloaded, hhalved⟩
      · rw [Chip.respond, load_eq_self hloaded]
        exact hw
  | _ => exact hw

theorem whole_run (hw : (eeprom e).Whole) (h : e.Sound) {script : List (UInt64 × Request)}
    (hkeeps : (eeprom e).Avoids TakesHalf script) : ((eeprom e).run script).2.Whole := by
  have hboth : ((eeprom e).run script).2.Whole ∧ ((eeprom e).run script).2.Sound := by
    refine Avoids.run (P := fun c => c.Whole ∧ c.Sound) hkeeps ?_ ⟨hw, h⟩
    rintro c ⟨hw, h⟩ x - hkeeps
    refine ⟨?_, h.respond x.1 x.2⟩
    cases c with
    | absent | sram => exact whole_of_kind (by rw [kind_respond]; nofun)
    | eeprom e => exact hw.respond h hkeeps x.1
  exact hboth.1

/-- Polls, and after them two values. -/
theorem run_polled (h : e.Resting) {polls : List UInt64} {t : UInt64}
    (hdue : e.deadline ≤ t ∨ ∃ now ∈ polls, e.deadline ≤ now) (t' : UInt64) (v v' : UInt8) :
    ((eeprom e).run (polls.map (·, .readBit) ++ [(t, .writeBit v), (t', .writeBit v')])).2 =
      eeprom { e with
        ready := true
        address := 0
        received := 0
        command := 2 * (bitAt v 0).toNat + (bitAt v' 0).toNat
        phase := .ofCommand (2 * (bitAt v 0).toNat + (bitAt v' 0).toNat) } := by
  have hsent := run_writeBits (e.receive polls).2 [(t, v), (t', v')]
  rw [run_append, Eeprom.run_receive]
  refine (congrArg Prod.snd hsent).trans ?_
  exact congrArg eeprom (h.send_polled hdue t' (bitAt v 0) (bitAt v' 0))

/-! ### Busy chips in snapshots -/

/-- The header of a small chip that is idle, and busy until cycle 100. -/
def busyHeader (received : UInt32) : Header where
  ready := false
  sizeMask := Capacity.small.sizeMask
  received := received
  shifted := 0
  address := 0
  phase := Phase.idle.code
  command := 0
  deadline := 100

/-- The chip that takes over such a header over an erased storage. -/
def busyChip (received : UInt32) : Eeprom where
  toRegisters := .ofHeader (busyHeader received)
  capacity := .small
  storage := .ofList (List.replicate 512 0xFF)

theorem reached_restore (k : Kind) (now : UInt64) (bs : List UInt8) :
    reached k [(now, .restore bs)] = ((fresh k).restore bs).2 := rfl

theorem reached_busyHeader {received : UInt32}
    (hfault : (busyHeader received).fault? (.eeprom .small) = none) :
    reached (.eeprom .small)
        [(0, .restore ((busyHeader received).encode ++ List.replicate 512 0xFF))] =
      eeprom (busyChip received) := by
  have hlength : (List.replicate 512 (0xFF : UInt8)).length = (fresh (.eeprom .small)).kind.bytes :=
    List.length_replicate
  rw [reached_restore, restore_encode (sound_fresh (.eeprom .small)).size_eq hfault hlength]
  rfl

/-! ### The chips that occur -/

/-- **A busy chip holds no half command**, unless a snapshot says so.  In every run that brings in no
snapshot of a busy chip with half a command, a chip that is idle and not ready has received no bit
of a command.  Hence it drops every bit before its deadline, and from the deadline on, or once a poll
has found it ready, the first bit that it accepts is the first one of a command of two. -/
theorem whole_reached {c : Capacity} {script : List (UInt64 × Request)} {e : Eeprom}
    (hkeeps : (fresh (.eeprom c)).Avoids TakesHalf script)
    (he : reached (.eeprom c) script = eeprom e) (hphase : e.phase = .idle)
    (hready : e.ready = false) :
    e.received = 0 ∧
      (∀ now value, now < e.deadline →
        (eeprom e).respond now (.writeBit value) = (.done, eeprom e)) ∧
      ∀ (polls : List UInt64) (t t' : UInt64) (v v' : UInt8),
        (e.deadline ≤ t ∨ ∃ now ∈ polls, e.deadline ≤ now) →
          ((eeprom e).run (polls.map (·, .readBit) ++ [(t, .writeBit v), (t', .writeBit v')])).2 =
            eeprom { e with
              ready := true
              address := 0
              received := 0
              command := 2 * (bitAt v 0).toNat + (bitAt v' 0).toNat
              phase := .ofCommand (2 * (bitAt v 0).toNat + (bitAt v' 0).toNat) } := by
  have hfresh : (eeprom (.fresh c)).Whole := Eeprom.whole_of_ready rfl
  have hwhole := whole_run hfresh (Eeprom.sound_fresh c) hkeeps
  change (reached (.eeprom c) script).Whole at hwhole
  rw [he] at hwhole
  have hbusy : e.Busy := Eeprom.Whole.busy hwhole hphase hready
  refine ⟨hbusy.received, ?_, ?_⟩
  · intro now value hlt
    have hearly : Request.usesLine (.writeBit value) = true → now < e.deadline := fun _ => hlt
    exact respond_busy hbusy rfl hearly
  · intro polls t t' v v' hdue
    exact run_polled hbusy.toResting hdue t' v v'

/-- A snapshot of a busy chip with no command bits, a poll at the deadline, and a command to read. -/
theorem whole_reached_restored :
    let script : List (UInt64 × Request) :=
      [(0, .restore ((busyHeader 0).encode ++ List.replicate 512 0xFF))]
    ∃ e, reached (.eeprom .small) script = eeprom e ∧ e.received = 0 ∧
      ((eeprom e).respond 99 (.writeBit 1)).2 = eeprom e ∧
      ∃ e', ((eeprom e).run [(100, .readBit), (5, .writeBit 1), (6, .writeBit 1)]).2 = eeprom e' ∧
        e'.phase = .readAddress := by
  intro script
  have hreached : reached (.eeprom .small) script = eeprom (busyChip 0) :=
    reached_busyHeader (by decide)
  have hkeeps : (fresh (.eeprom .small)).Avoids TakesHalf script := by
    refine ⟨?_, trivial⟩
    rintro ⟨-, hhalved⟩
    rw [Header.ofBytes_encode] at hhalved
    exact absurd hhalved (by decide)
  obtain ⟨hreceived, hearly, hlater⟩ := whole_reached hkeeps hreached rfl rfl
  refine ⟨_, hreached, hreceived, congrArg Prod.snd (hearly 99 1 (by decide)), ?_⟩
  exact ⟨_, hlater [100] 5 6 1 1 (.inr ⟨100, by decide, by decide⟩), rfl⟩

/-- A snapshot of a busy chip with half a command is taken over, and the first bit that the chip
accepts at its deadline completes the undefined command. -/
theorem halved_restored :
    let script : List (UInt64 × Request) :=
      [(0, .restore ((busyHeader 1).encode ++ List.replicate 512 0xFF))]
    ∃ e, reached (.eeprom .small) script = eeprom e ∧
      e.phase = .idle ∧ e.ready = false ∧ e.received = 1 ∧ e.deadline = 100 ∧
      ∃ e', ((eeprom e).respond 100 (.writeBit 1)).2 = eeprom e' ∧ e'.phase = .invalid := by
  intro script
  have hreached : reached (.eeprom .small) script = eeprom (busyChip 1) :=
    reached_busyHeader (by decide)
  exact ⟨_, hreached, rfl, rfl, rfl, rfl, _, rfl, rfl⟩

end Chip

end SaveChip
