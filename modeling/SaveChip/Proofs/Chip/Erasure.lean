import SaveChip.Proofs.Chip.Interleaving

/-! # Requests that leave no trace

Most requests are not for every chip.  Some only ask; a snapshot that is rejected is not taken over;
the bus does not reach a serial chip, and the line does not reach a RAM.  A serial chip is deaf to the
line as well where its phase has no use for it.  All of these leave the chip as it is
(`respond_ignored`), and a run without them is the same run: what is left is answered as before, and
the chip at the end is the same (`run_kept`).

Whether a request leaves no trace may depend on the chip that it finds.  `Chip.kept` follows a run and
marks the requests that stay; the same marks pick their replies. -/

namespace SaveChip

/-- Asks for something, and leaves every chip as it is. -/
def Request.isQuery : Request → Bool
  | kind | read .. | peek _ | tick | contents | snapshotSize | snapshot => true
  | _ => false

/-- The entries of a list whose places are marked. -/
def marked {α : Type} : List Bool → List α → List α
  | true :: marks, x :: xs => x :: marked marks xs
  | false :: marks, _ :: xs => marked marks xs
  | _, _ => []

namespace Phase

/-- The line may be read without effect. -/
def ignoresReads : Phase → Bool
  | writeAddress | readAddress | writeData | invalid => true
  | idle | readData => false

def ignoresBits : Phase → Bool
  | readData | invalid => true
  | idle | writeAddress | readAddress | writeData => false

end Phase

namespace Eeprom

variable {e : Eeprom}

theorem clockOut_ignored (h : e.phase.ignoresReads = true) (now : UInt64) :
    e.clockOut now = e ∧ e.output now = false := by
  unfold clockOut output
  cases hp : e.phase with
  | idle | readData =>
      rw [hp] at h
      cases h
  | writeData | invalid | writeAddress | readAddress => exact ⟨rfl, rfl⟩

theorem clockIn_ignored (h : e.phase.ignoresBits = true) (now : UInt64) (bit : Bool) :
    e.clockIn now bit = e := by
  unfold clockIn
  cases hp : e.phase with
  | idle | writeData | writeAddress | readAddress =>
      rw [hp] at h
      cases h
  | readData | invalid => rfl

end Eeprom

namespace Chip

variable {c : Chip} {request : Request}

/-- The request does not reach a chip of this kind, or this chip has no use for it now. -/
def deafTo (c : Chip) (request : Request) : Bool :=
  match c, request with
  | absent, _ => true
  | sram _, .readBit | sram _, .writeBit _ | sram _, .reset => true
  | eeprom _, .write .. | eeprom _, .poke .. => true
  | eeprom e, .readBit => e.phase.ignoresReads
  | eeprom e, .writeBit _ => e.phase.ignoresBits
  | _, _ => false

/-- The request brings a snapshot that is not taken over. -/
def rejects (c : Chip) : Request → Bool
  | .restore bs => decide ((c.restore bs).1 ≠ .loaded)
  | _ => false

def ignores (c : Chip) (request : Request) : Bool :=
  request.isQuery || c.rejects request || c.deafTo request

/-- The requests of a run that cannot be left out, marked one by one. -/
def kept (c : Chip) : List (UInt64 × Request) → List Bool
  | [] => []
  | (now, request) :: rest => (!c.ignores request) :: (c.respond now request).2.kept rest

/-! ### One request -/

theorem respond_query (h : request.isQuery = true) (c : Chip) (now : UInt64) :
    (c.respond now request).2 = c := by
  cases request with
  | kind | read | peek | tick | contents | snapshotSize | snapshot => rfl
  | _ => cases h

theorem respond_rejected (h : c.rejects request = true) (now : UInt64) :
    (c.respond now request).2 = c := by
  cases request with
  | restore bs => exact restore_eq_self (of_decide_eq_true h)
  | _ => cases h

theorem eq_absent (h : c.kind = .absent) : c = absent := by
  cases c with
  | absent => rfl
  | sram | eeprom => cases h

theorem respond_deaf (h : c.deafTo request = true) (now : UInt64) :
    (c.respond now request).2 = c := by
  cases c with
  | absent => exact eq_absent (kind_respond absent now request)
  | sram s =>
      cases request with
      | readBit | writeBit | reset => rfl
      | _ => cases h
  | eeprom e =>
      cases request with
      | write | poke => rfl
      | readBit => exact congrArg eeprom (Eeprom.clockOut_ignored h now).1
      | writeBit value => exact congrArg eeprom (Eeprom.clockIn_ignored h now _)
      | _ => cases h

/-- A request that can be left out leaves the chip as it is. -/
theorem respond_ignored (h : c.ignores request = true) (now : UInt64) :
    (c.respond now request).2 = c := by
  rw [ignores, Bool.or_eq_true, Bool.or_eq_true] at h
  obtain (hquery | hrejected) | hdeaf := h
  · exact respond_query hquery c now
  · exact respond_rejected hrejected now
  · exact respond_deaf hdeaf now

/-! ### Runs -/

theorem run_kept (c : Chip) (script : List (UInt64 × Request)) :
    c.run (marked (c.kept script) script) =
      (marked (c.kept script) (c.run script).1, (c.run script).2) := by
  induction script generalizing c with
  | nil => rfl
  | cons x script ih =>
      obtain ⟨now, request⟩ := x
      have hrest := ih (c.respond now request).2
      rw [kept, run]
      cases hignored : c.ignores request with
      | true =>
          rw [respond_ignored hignored now] at hrest ⊢
          exact hrest
      | false =>
          simp only [Bool.not_false, marked, run, hrest]

theorem read_of_not_sram (h : c.kind ≠ .sram) (width : Width) (address : UInt32) :
    c.read width address = width.openBus ∧ c.peek address = 0xFF := by
  cases c with
  | sram => exact absurd rfl h
  | absent | eeprom => exact ⟨rfl, rfl⟩

theorem output_ignored (h : c.ignores .readBit = true) (now : UInt64) :
    c.output now = match c.kind with
      | .absent | .sram => 0xFF
      | .eeprom _ => 0 := by
  cases c with
  | absent | sram => rfl
  | eeprom e =>
      have hphase : e.phase.ignoresReads = true := h
      exact congrArg Bool.toUInt8 (Eeprom.clockOut_ignored hphase now).2

/-- A read of a serial chip with polls, a bus access and a stray bit put in, and without them. -/
example :
    let script : List (UInt64 × Request) :=
      [(0, .writeBit 1), (1, .writeBit 1), (2, .readBit), (3, .write .byte 7 7), (4, .writeBit 0),
        (5, .reset), (6, .readBit), (7, .restore [])]
    (fresh (.eeprom .small)).kept script =
      [true, true, false, false, true, true, true, false] := by decide +kernel

end Chip

end SaveChip
