import SaveChip.Proofs.Eeprom.Checked
import SaveChip.Proofs.Snapshot.Restore

/-! # No run breaks a rule of checked arithmetic

The requests to a chip in the arithmetic of the checked line: a slice takes no more than there
is, bytes are copied between slices of one length, and the cursors that take a snapshot and bring
it back do not leave the buffer.  A request that breaks a rule has no result.

`respond?_eq` says that on a sound chip every request has one, and that it is the answer of
`respond`.  Since every chip that occurs is sound, no run breaks a rule (`run?_eq`), and
`run_eeprom_safe` adds what the registers of the serial chip hold at the end of it. -/

namespace SaveChip

/-! ### Storage -/

/-- The first `n` of at least so many bytes. -/
def front? (bs : List UInt8) (n : Nat) : Option (List UInt8) :=
  if n ≤ bs.length then some (bs.take n) else none

theorem front?_eq {bs : List UInt8} {n : Nat} (h : n ≤ bs.length) :
    front? bs n = some (bs.take n) := if_pos h

namespace Storage

/-- Copies at most `limit` bytes over a slice of the same length at the front. -/
def overwrite? (s : Storage) (limit : Nat) (bs : List UInt8) : Option Storage := do
  let count := min bs.length limit
  let source ← front? bs count
  let target ← front? s.toList count
  if source.length = target.length then
    pure (ofList (source ++ s.toList.drop count))
  else
    none

theorem overwrite?_eq (s : Storage) (bs : List UInt8) :
    s.overwrite? s.size bs = some (s.overwrite bs) := by
  have hsource : min bs.length s.size ≤ bs.length := Nat.min_le_left ..
  have htarget : min bs.length s.size ≤ s.toList.length := Nat.min_le_right ..
  have hlength : (bs.take (min bs.length s.size)).length =
      (s.toList.take (min bs.length s.size)).length := by
    rw [List.length_take_of_le hsource, List.length_take_of_le htarget]
  have htake : bs.take (min bs.length s.size) = bs.take s.size := by
    rw [Nat.min_comm, ← List.take_take, List.take_length]
  have hdrop : s.toList.drop (min bs.length s.size) = s.toList.drop bs.length := by
    obtain hle | hle := Nat.le_total bs.length s.size
    · rw [Nat.min_eq_left hle]
    · have hsize : s.toList.length = s.size := rfl
      rw [Nat.min_eq_right hle, List.drop_of_length_le (by omega), List.drop_of_length_le (by omega)]
  rw [overwrite?, front?_eq hsource, front?_eq htarget]
  simp only [Option.bind_eq_bind, Option.bind_some]
  rw [if_pos hlength, htake, hdrop]
  rfl

end Storage

/-! ### The RAM -/

namespace Width

/-- A lane is shifted down by less than the width of the access. -/
def lane? (w : Width) (address value : UInt32) : Option UInt8 := do
  let place ← places? (8 * w.bytes) (8 * (address.toNat % w.bytes))
  pure (value >>> UInt32.ofNat place).toUInt8

/-- A byte is shifted up to each lane within the width of the access. -/
def replicate? (w : Width) (b : UInt8) : Option UInt32 :=
  (List.range w.bytes).foldlM (fun v i => do
    let place ← places? (8 * w.bytes) (8 * i)
    pure (v ||| b.toUInt32 <<< UInt32.ofNat place)) 0

theorem lane?_eq (w : Width) (address value : UInt32) :
    w.lane? address value = some (w.lane address value) := by
  have hwidth : 0 < w.bytes := by cases w <;> decide
  have hlane := Nat.mod_lt address.toNat hwidth
  rw [lane?, places?_eq (by omega)]
  rfl

theorem replicate?_eq (w : Width) (b : UInt8) : w.replicate? b = some (w.replicate b) := by
  cases w <;> rfl

end Width

namespace Sram

variable {s : Sram}

def peek? (s : Sram) (address : UInt32) : Option UInt8 := s.storage.byte? (offset address)

def read? (s : Sram) (width : Width) (address : UInt32) : Option UInt32 := do
  let b ← s.peek? address
  width.replicate? b

def poke? (s : Sram) (address : UInt32) (value : UInt8) : Option Sram := do
  let storage ← s.storage.setByte? (offset address) value
  pure { s with storage := storage }

def write? (s : Sram) (width : Width) (address value : UInt32) : Option Sram := do
  let b ← width.lane? address value
  let s ← s.poke? address b
  pure { s with dirty := true }

def loadFile? (s : Sram) (bs : List UInt8) : Option Sram := do
  let storage ← s.storage.overwrite? capacity bs
  pure { storage := storage }

/-- Every address lands within a storage of the right size. -/
theorem offset_lt (h : s.storage.size = capacity) (address : UInt32) :
    offset address < s.storage.size := by
  rw [h]
  exact Nat.mod_lt _ (by decide)

theorem peek?_eq (h : s.storage.size = capacity) (address : UInt32) :
    s.peek? address = some (s.peek address) :=
  Storage.byte?_eq (offset_lt h address)

theorem read?_eq (h : s.storage.size = capacity) (width : Width) (address : UInt32) :
    s.read? width address = some (s.read width address) := by
  rw [read?, peek?_eq h]
  exact width.replicate?_eq _

theorem poke?_eq (h : s.storage.size = capacity) (address : UInt32) (value : UInt8) :
    s.poke? address value = some (s.poke address value) := by
  rw [poke?, Storage.setByte?_eq (offset_lt h address)]
  rfl

theorem write?_eq (h : s.storage.size = capacity) (width : Width) (address value : UInt32) :
    s.write? width address value = some (s.write width address value) := by
  rw [write?, Width.lane?_eq]
  simp only [Option.bind_eq_bind, Option.bind_some]
  rw [poke?_eq h]
  rfl

theorem loadFile?_eq (h : s.storage.size = capacity) (bs : List UInt8) :
    s.loadFile? bs = some (s.loadFile bs) := by
  rw [loadFile?, ← h, Storage.overwrite?_eq]
  rfl

end Sram

namespace Eeprom

def loadFile? (e : Eeprom) (bs : List UInt8) : Option Eeprom := do
  let storage ← e.storage.overwrite? e.storage.size bs
  pure { e with storage := storage, dirty := false }

theorem loadFile?_eq (e : Eeprom) (bs : List UInt8) : e.loadFile? bs = some (e.loadFile bs) := by
  rw [loadFile?, Storage.overwrite?_eq]
  rfl

end Eeprom

namespace Chip

variable {c : Chip}

/-! ### Requests -/

/-- The snapshot, if the cursor that writes it stays within the buffer. -/
def snapshot? (c : Chip) : Option (List UInt8) :=
  let saved := c.save (.blank c.snapshotSize)
  if saved.1 then some saved.2.buffer else none

/-- The verdict on a snapshot, if the cursor that reads it stays within the buffer. -/
def restore? (c : Chip) (bs : List UInt8) : Option (LoadOutcome × Chip) :=
  match c.restore bs with
  | (.overrun, _) => none
  | answer => some answer

theorem snapshot?_eq (c : Chip) : c.snapshot? = some c.snapshot := by
  rw [snapshot?, snapshot, save_blank]
  rfl

theorem restore?_eq (hs : c.size = c.kind.bytes) (bs : List UInt8) :
    c.restore? bs = some (c.restore bs) := by
  unfold restore?
  rw [restore_eq hs]
  cases snapshotFault? c.kind bs <;> rfl

/-- The answer to a request in checked arithmetic.  What is not listed does not compute, or it
works on a buffer of the caller's and reports how far that went. -/
def respond? (c : Chip) (now : UInt64) (request : Request) : Option (Reply × Chip) :=
  match c, request with
  | sram s, .read width address => do
      let value ← s.read? width address
      pure (.value value, c)
  | sram s, .write width address value => do
      let s ← s.write? width address value
      pure (.done, sram s)
  | sram s, .peek address => do
      let b ← s.peek? address
      pure (.value b.toUInt32, c)
  | sram s, .poke address value => do
      let s ← s.poke? address value
      pure (.done, sram s)
  | sram s, .loadFile bs => do
      let s ← s.loadFile? bs
      pure (.done, sram s)
  | eeprom e, .readBit => do
      let (bit, e) ← e.clockOut? now
      pure (.value bit.toUInt8.toUInt32, eeprom e)
  | eeprom e, .writeBit value => do
      let e ← e.clockIn? now (bitAt value 0)
      pure (.done, eeprom e)
  | eeprom e, .loadFile bs => do
      let e ← e.loadFile? bs
      pure (.done, eeprom e)
  | c, .snapshot => do
      let bs ← c.snapshot?
      pure (.snapshot bs, c)
  | c, .restore bs => do
      let (outcome, c) ← c.restore? bs
      pure (.restored outcome, c)
  | c, request => pure (c.respond now request)

theorem respond?_eq (hs : c.Sound) (now : UInt64) (request : Request) :
    c.respond? now request = some (c.respond now request) := by
  cases request with
  | snapshot =>
      have hanswer : c.respond? now .snapshot = c.snapshot?.bind fun bs => some (.snapshot bs, c) := by
        cases c <;> rfl
      rw [hanswer, snapshot?_eq]
      rfl
  | restore bs =>
      have hanswer : c.respond? now (.restore bs) =
          (c.restore? bs).bind fun answer => some (.restored answer.1, answer.2) := by
        cases c <;> rfl
      rw [hanswer, restore?_eq hs.size_eq]
      rfl
  | read width address =>
      cases c with
      | sram s => rw [respond?, Sram.read?_eq hs]; rfl
      | absent | eeprom => rfl
  | write width address value =>
      cases c with
      | sram s => rw [respond?, Sram.write?_eq hs]; rfl
      | absent | eeprom => rfl
  | peek address =>
      cases c with
      | sram s => rw [respond?, Sram.peek?_eq hs]; rfl
      | absent | eeprom => rfl
  | poke address value =>
      cases c with
      | sram s => rw [respond?, Sram.poke?_eq hs]; rfl
      | absent | eeprom => rfl
  | loadFile bs =>
      cases c with
      | sram s => rw [respond?, Sram.loadFile?_eq hs]; rfl
      | eeprom e => rw [respond?, Eeprom.loadFile?_eq]; rfl
      | absent => rfl
  | readBit =>
      cases c with
      | eeprom e => rw [respond?, Eeprom.clockOut?_eq hs]; rfl
      | absent | sram => rfl
  | writeBit value =>
      cases c with
      | eeprom e => rw [respond?, Eeprom.clockIn?_eq hs]; rfl
      | absent | sram => rfl
  | _ => cases c <;> rfl

/-! ### Runs -/

def run? (c : Chip) : List (UInt64 × Request) → Option (List Reply × Chip)
  | [] => pure ([], c)
  | (now, request) :: rest => do
      let (reply, c) ← c.respond? now request
      let (replies, c) ← c.run? rest
      pure (reply :: replies, c)

theorem run?_eq (hs : c.Sound) (script : List (UInt64 × Request)) :
    c.run? script = some (c.run script) := by
  induction script generalizing c with
  | nil => rfl
  | cons x script ih =>
      rw [run?, respond?_eq hs]
      simp only [Option.bind_eq_bind, Option.bind_some]
      rw [ih (hs.respond x.1 x.2)]
      rfl

/-- **Whatever is asked of a serial chip, at whatever times**: the storage keeps its size, the
registers stay within the bounds of the phase they are in, and no request on the way breaks a rule
of checked arithmetic. -/
theorem run_eeprom_safe (capacity : Capacity) (script : List (UInt64 × Request)) :
    ∃ e : Eeprom, reached (.eeprom capacity) script = eeprom e ∧
      e.capacity = capacity ∧ e.storage.size = capacity.bytes ∧
      e.command ≤ 3 ∧ e.InPhase capacity e.phase ∧
      (fresh (.eeprom capacity)).run? script = some ((fresh (.eeprom capacity)).run script) := by
  have hsound := sound_reached (.eeprom capacity) script
  have hkind := kind_reached (.eeprom capacity) script
  have hrun := run?_eq (sound_fresh (.eeprom capacity)) script
  cases hc : reached (.eeprom capacity) script with
  | absent => rw [hc] at hkind; cases hkind
  | sram s => rw [hc] at hkind; cases hkind
  | eeprom e =>
      rw [hc] at hsound hkind
      cases Kind.eeprom.inj hkind
      exact ⟨e, rfl, rfl, hsound.size, hsound.registers.1, hsound.registers.2, hrun⟩

end Chip

end SaveChip
