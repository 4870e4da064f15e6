import SaveChip.Proofs.Chip.Resume

/-! # Unloading and loading again

A cartridge is unloaded by writing the contents of its chip to a file, and loaded by filling a new
chip from that file.  A new chip has the registers that a reset leaves, and a file as long as the
storage replaces all of it, so the two together are a power cycle: what comes back is the old chip
after a reset, with its flag taken (`loadFile_fresh`).

A file of another length replaces as much of the storage as it covers, and no file moves the
registers (`contents_loadFile`, `registers?_loadFile`). -/

namespace SaveChip

namespace Storage

/-- A file covers the front of the storage, as far as both of them reach. -/
theorem toList_overwrite_min (s : Storage) (bs : List UInt8) :
    (s.overwrite bs).toList =
      bs.take (min bs.length s.size) ++ s.toList.drop (min bs.length s.size) := by
  rw [toList_overwrite]
  obtain hle | hle := Nat.le_total bs.length s.size
  · rw [Nat.min_eq_left hle, List.take_of_length_le hle, List.take_length]
  · have hcovered : s.toList.length ≤ bs.length := hle
    rw [Nat.min_eq_right hle, List.drop_eq_nil_of_le hcovered, ← s.length_toList, List.drop_length]

/-- Storage of the same size takes over another one whole. -/
theorem overwrite_toList {s t : Storage} (h : s.size = t.size) : s.overwrite t.toList = t := by
  have hall : t.toList.take s.size = t.toList := List.take_of_length_le (Nat.le_of_eq h.symm)
  have hnone : s.toList.drop t.toList.length = [] := List.drop_eq_nil_of_le (Nat.le_of_eq h)
  rw [overwrite, hall, hnone, List.append_nil, ofList_toList]

end Storage

namespace Chip

variable {c : Chip}

/-! ### A save file of any length -/

theorem contents_loadFile (c : Chip) (bs : List UInt8) :
    (c.loadFile bs).contents =
      bs.take (min bs.length c.size) ++ c.contents.drop (min bs.length c.size) := by
  cases c with
  | absent =>
      have hnone : min bs.length absent.size = 0 := Nat.min_zero _
      rw [hnone]
      rfl
  | sram s => exact s.storage.toList_overwrite_min bs
  | eeprom e => exact e.storage.toList_overwrite_min bs

theorem registers?_loadFile (c : Chip) (bs : List UInt8) :
    (c.loadFile bs).registers? = c.registers? := by
  cases c <;> rfl

theorem size_loadFile (c : Chip) (bs : List UInt8) : (c.loadFile bs).size = c.size := by
  cases c with
  | absent => rfl
  | sram s => exact s.storage.size_overwrite bs
  | eeprom e => exact e.storage.size_overwrite bs

theorem dirty_loadFile (c : Chip) (bs : List UInt8) : (c.loadFile bs).dirty = false := by
  cases c <;> rfl

/-! ### A save file of the chip's own -/

theorem contents?_eq_some (h : c.kind ≠ .absent) : c.contents? = some c.contents := by
  cases c with
  | absent => exact absurd rfl h
  | sram | eeprom => rfl

/-- **A new chip that is filled with the contents of an old one** is the old one after a reset, with
its flag taken. -/
theorem loadFile_fresh (h : c.Sound) : (fresh c.kind).loadFile c.contents = c.reset.clearDirty := by
  cases c with
  | absent => rfl
  | sram s =>
      have hsize : Sram.fresh.storage.size = s.storage.size := by
        rw [Sram.fresh, Storage.size_erased, h]
      have hfilled : Sram.fresh.loadFile s.storage.toList = { s with dirty := false } := by
        rw [Sram.loadFile, Storage.overwrite_toList hsize]
      exact congrArg sram hfilled
  | eeprom e =>
      have hsize : (Eeprom.fresh e.capacity).storage.size = e.storage.size := by
        rw [Eeprom.fresh, Storage.size_erased, h.size]
      have hfilled : (Eeprom.fresh e.capacity).loadFile e.storage.toList =
          { e.reset with dirty := false } := by
        rw [Eeprom.loadFile, Storage.overwrite_toList hsize]
        rfl
      exact congrArg eeprom hfilled

/-- **Unloading a cartridge and loading it again is a power cycle.**  Whatever a run has done to a
chip that keeps something, a new chip of its kind that is filled with its contents holds these
contents, has its flag down, and from then on it is and answers in everything what the old chip would
be and answer after a reset, had its flag been taken.

A save file of any length, brought to a chip in whatever state, replaces the front of the storage as
far as both reach and leaves the rest of it.  The registers stay as they were, even in the middle of a
transfer, and the flag is down. -/
theorem reload_reached (k : Kind) (script : List (UInt64 × Request)) (now reset taken : UInt64) :
    let chip := reached k script
    (k ≠ .absent → ∃ bs, chip.contents? = some bs ∧
      let reloaded := ((fresh chip.kind).respond now (.loadFile bs)).2
      let cycled := (chip.run [(reset, .reset), (taken, .takeDirty)]).2
      reloaded.storage? = chip.storage? ∧ reloaded.dirty = false ∧
        ∀ later, reloaded.run later = cycled.run later) ∧
    ∀ bs,
      let loaded := (chip.respond now (.loadFile bs)).2
      let covered := min bs.length k.bytes
      loaded.contents = bs.take covered ++ chip.contents.drop covered ∧
        loaded.size = chip.size ∧ loaded.registers? = chip.registers? ∧ loaded.dirty = false := by
  intro chip
  have hsound : chip.Sound := sound_reached k script
  have hkind : chip.kind = k := kind_reached k script
  constructor
  · intro hk
    have hkeeps : chip.kind ≠ .absent := by rwa [hkind]
    refine ⟨chip.contents, contents?_eq_some hkeeps, ?_⟩
    intro reloaded cycled
    have hsame : reloaded = cycled := loadFile_fresh hsound
    have hstorage : cycled.storage? = chip.storage? := by
      change chip.reset.clearDirty.storage? = _
      cases chip <;> rfl
    rw [hsame]
    refine ⟨hstorage, ?_, fun later => rfl⟩
    rw [← hsame]
    exact dirty_loadFile _ _
  · intro bs loaded covered
    have hcovered : covered = min bs.length chip.size := by rw [hsound.size_eq, hkind]
    rw [hcovered]
    exact ⟨contents_loadFile chip bs, size_loadFile chip bs, registers?_loadFile chip bs,
      dirty_loadFile chip bs⟩

end Chip

end SaveChip
