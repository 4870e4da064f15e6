import SaveChip.Proofs.Chip.Checked
import SaveChip.Proofs.Chip.Dirty

/-! # The RAM is an array of bytes

The processor reaches the RAM through accesses of three widths, and no address is outside: the 32
KiB repeat.  Yet each access concerns one cell.  A write stores one of its bytes in the cell of its
address, namely the one on the lane that the address selects, and a read finds the byte of its cell
on every lane.

The lane depends on the whole address and the cell on its low bits.  Both agree on mirrored
addresses because the number of lanes divides the size of the array (`Width.lane_wrap`), so that no
run can tell these addresses apart (`run_wrapped`).

What the cells hold and what is answered is told from the accesses alone, by the last byte that was
stored in a cell (`byteAfter`, `arrayReplies`). -/

namespace SaveChip

namespace Width

/-- The factor that puts a byte on every lane. -/
def spread : Width → Nat
  | byte => 1
  | half => 0x0101
  | word => 0x01010101

theorem replicate_eq (w : Width) (b : UInt8) :
    w.replicate b = UInt32.ofNat (b.toNat * w.spread) := by
  have hall : ∀ n < 256, w.replicate (UInt8.ofNat n) = UInt32.ofNat (n * w.spread) := by
    cases w <;> decide +kernel
  have hb := hall b.toNat b.toNat_lt
  rwa [UInt8.ofNat_toNat] at hb

theorem lane_eq (w : Width) (address value : UInt32) :
    w.lane address value = UInt8.ofNat (value.toNat >>> (8 * (address.toNat % w.bytes))) := by
  apply UInt8.toNat.inj
  rw [toNat_lane, UInt8.toNat_ofNat']

theorem lane_byte (address : UInt32) (b : UInt8) : byte.lane address b.toUInt32 = b := by
  simp [lane, bytes, Nat.mod_one]

theorem lane_wrap (w : Width) (address value : UInt32) :
    w.lane (address % 0x8000) value = w.lane address value := by
  have hlanes : w.bytes ∣ 0x8000 := by cases w <;> decide
  have hsame : (address % 0x8000).toNat % w.bytes = address.toNat % w.bytes :=
    Nat.mod_mod_of_dvd _ hlanes
  rw [lane, lane, hsame]

end Width

namespace Sram

variable {s : Sram}

theorem offset_wrap (address : UInt32) : offset (address % 0x8000) = offset address :=
  Nat.mod_mod ..

theorem byte_poke (h : s.storage.size = capacity) (address : UInt32) (value : UInt8) (cell : Nat) :
    (s.poke address value).storage.byte cell =
      if address.toNat % 0x8000 = cell then value else s.storage.byte cell := by
  rw [poke, Storage.byte_setByte (offset_lt h address)]
  simp only [eq_comm]
  rfl

theorem byte_write (h : s.storage.size = capacity) (width : Width) (address value : UInt32)
    (cell : Nat) :
    (s.write width address value).storage.byte cell =
      if address.toNat % 0x8000 = cell then width.lane address value else s.storage.byte cell :=
  byte_poke h address _ cell

end Sram

/-! ### Accesses -/

namespace Request

/-- What a game and a debugger do to a chip. -/
def isAccess : Request → Bool
  | poke .. => true
  | request => request.isGame

/-- A write of the game. -/
def isWrite : Request → Bool
  | write .. => true
  | _ => false

/-- The same request under the lowest of the mirrored addresses. -/
def wrapped : Request → Request
  | read width address => read width (address % 0x8000)
  | write width address value => write width (address % 0x8000) value
  | peek address => peek (address % 0x8000)
  | poke address value => poke (address % 0x8000) value
  | request => request

/-- The byte that a request stores in a cell of the array, if it stores one there. -/
def storedIn? (cell : Nat) : Request → Option UInt8
  | write width address value =>
      if address.toNat % 0x8000 = cell then
        some (UInt8.ofNat (value.toNat >>> (8 * (address.toNat % width.bytes))))
      else
        none
  | poke address value => if address.toNat % 0x8000 = cell then some value else none
  | _ => none

/-- What is answered to an access if the array holds the given bytes. -/
def arrayReply (cells : Nat → UInt8) : Request → Reply
  | read width address =>
      .value (UInt32.ofNat ((cells (address.toNat % 0x8000)).toNat * width.spread))
  | peek address => .value (cells (address.toNat % 0x8000)).toUInt32
  | readBit => .value 0xFF
  | _ => .done

/-- The byte in a cell after a series of accesses, the last of them first: the last one that was
stored there, or the initial one. -/
def byteAfter (initial : Nat → UInt8) (past : List Request) (cell : Nat) : UInt8 :=
  (past.findSome? (storedIn? cell)).getD (initial cell)

/-- What is answered to a series of accesses, after those of the past. -/
def arrayReplies (initial : Nat → UInt8) (past : List Request) : List Request → List Reply
  | [] => []
  | request :: rest =>
      request.arrayReply (byteAfter initial past) :: arrayReplies initial (request :: past) rest

theorem byteAfter_cons (initial : Nat → UInt8) (request : Request) (past : List Request)
    (cell : Nat) :
    byteAfter initial (request :: past) cell =
      (request.storedIn? cell).getD (byteAfter initial past cell) := by
  unfold byteAfter
  rw [List.findSome?_cons]
  cases request.storedIn? cell with
  | none => rfl
  | some b => rfl

end Request

namespace Chip

variable {s : Sram} {request : Request}

/-! ### One access -/

theorem respond_access (h : s.storage.size = Sram.capacity) (haccess : request.isAccess = true)
    (now : UInt64) :
    ∃ s', (sram s).respond now request = (request.arrayReply s.storage.byte, sram s') ∧
      s'.storage.size = Sram.capacity ∧ s'.dirty = (s.dirty || request.isWrite) ∧
      ∀ cell, s'.storage.byte cell = (request.storedIn? cell).getD (s.storage.byte cell) := by
  cases request with
  | read width address =>
      refine ⟨s, ?_, h, (Bool.or_false _).symm, fun _ => rfl⟩
      rw [respond, Chip.read, Sram.read, Width.replicate_eq]
      rfl
  | write width address value =>
      refine ⟨s.write width address value, rfl, ?_, (Bool.or_true _).symm, fun cell => ?_⟩
      · exact (Storage.size_setByte ..).trans h
      · rw [Sram.byte_write h, Width.lane_eq, Request.storedIn?]
        split <;> rfl
  | peek address => exact ⟨s, rfl, h, (Bool.or_false _).symm, fun _ => rfl⟩
  | poke address value =>
      refine ⟨s.poke address value, rfl, ?_, (Bool.or_false _).symm, fun cell => ?_⟩
      · exact (Storage.size_setByte ..).trans h
      · rw [Sram.byte_poke h, Request.storedIn?]
        split <;> rfl
  | tick | reset | readBit | writeBit => exact ⟨s, rfl, h, (Bool.or_false _).symm, fun _ => rfl⟩
  | _ => cases haccess

theorem respond_wrapped (c : Chip) (now : UInt64) (request : Request) :
    c.respond now request.wrapped = c.respond now request := by
  cases c with
  | absent | eeprom => cases request <;> rfl
  | sram s =>
      cases request with
      | read width address =>
          simp only [Request.wrapped, respond, Chip.read, Sram.read, Sram.peek, Sram.offset_wrap]
      | write width address value =>
          simp only [Request.wrapped, respond, Chip.write, Sram.write, Sram.poke, Sram.offset_wrap,
            Width.lane_wrap]
      | peek address => simp only [Request.wrapped, respond, Chip.peek, Sram.peek, Sram.offset_wrap]
      | poke address value =>
          simp only [Request.wrapped, respond, Chip.poke, Sram.poke, Sram.offset_wrap]
      | _ => rfl

/-! ### Runs -/

theorem exists_reached_sram (history : List (UInt64 × Request)) :
    ∃ s, reached .sram history = sram s ∧ s.storage.size = Sram.capacity := by
  have hkind := kind_reached .sram history
  have hsound := sound_reached .sram history
  cases hchip : reached .sram history with
  | absent | eeprom =>
      rw [hchip] at hkind
      cases hkind
  | sram s =>
      rw [hchip] at hsound
      exact ⟨s, rfl, hsound⟩

theorem run_wrapped (c : Chip) (script : List (UInt64 × Request)) :
    c.run (script.map fun x => (x.1, x.2.wrapped)) = c.run script := by
  induction script generalizing c with
  | nil => rfl
  | cons x script ih => rw [List.map_cons, run, run, respond_wrapped, ih]

/-- Accesses are answered from the bytes that those before them have left. -/
theorem run_accesses {initial : Nat → UInt8} {past : List Request}
    (h : s.storage.size = Sram.capacity)
    (hcells : ∀ cell, s.storage.byte cell = Request.byteAfter initial past cell)
    {script : List (UInt64 × Request)} (haccesses : ∀ x ∈ script, x.2.isAccess = true) :
    ∃ s', (sram s).run script =
        (Request.arrayReplies initial past (script.map Prod.snd), sram s') ∧
      s'.storage.size = Sram.capacity ∧
      s'.dirty = (s.dirty || script.any fun x => x.2.isWrite) ∧
      ∀ cell, s'.storage.byte cell =
        Request.byteAfter initial ((script.map Prod.snd).reverse ++ past) cell := by
  induction script generalizing s past with
  | nil => exact ⟨s, rfl, h, (Bool.or_false _).symm, hcells⟩
  | cons x script ih =>
      obtain ⟨now, request⟩ := x
      obtain ⟨hfirst, hrest⟩ := List.forall_mem_cons.mp haccesses
      obtain ⟨s₁, hafter, h₁, hdirty₁, hbytes₁⟩ := respond_access h hfirst now
      -- the first access is part of the past for those that follow
      have hcells₁ : ∀ cell, s₁.storage.byte cell =
          Request.byteAfter initial (request :: past) cell := by
        intro cell
        rw [hbytes₁, hcells, Request.byteAfter_cons]
      obtain ⟨s₂, hrun, h₂, hdirty₂, hcells₂⟩ := ih h₁ hcells₁ hrest
      refine ⟨s₂, ?_, h₂, ?_, fun cell => ?_⟩
      · rw [run, hafter]
        dsimp only
        rw [hrun, funext hcells]
        rfl
      · rw [hdirty₂, hdirty₁, List.any_cons, Bool.or_assoc]
      · rw [hcells₂, List.map_cons, List.reverse_cons, List.append_assoc]
        rfl

/-- **The RAM is an array of 32768 bytes**, in every state that occurs.  A write stores the byte on
the lane that its address selects in the cell of that address, and changes no other cell; a byte
that a debugger sets is stored like a written one, but leaves the dirty flag alone.

Over any run of accesses, a read answers with the last byte that was stored in its cell, or with the
one that the cell held at first, on every lane, and at the end the cells hold the bytes that were
stored in them last.  No access leaves the storage or breaks another rule of checked arithmetic, and
a run through other mirrored addresses is the same run. -/
theorem byteArray_reached (history : List (UInt64 × Request)) :
    ∃ s, reached .sram history = sram s ∧ s.storage.size = 0x8000 ∧
      (∀ now width address value, ∃ s',
        (sram s).respond now (.write width address value) = (.done, sram s') ∧
          (s'.storage.byte (address.toNat % 0x8000)).toNat =
            value.toNat >>> (8 * (address.toNat % width.bytes)) % 256 ∧
          (∀ cell, cell ≠ address.toNat % 0x8000 → s'.storage.byte cell = s.storage.byte cell)) ∧
      (∀ now address value, ∃ poked written,
        (sram s).respond now (.poke address value) = (.done, sram poked) ∧
          (sram s).respond now (.write .byte address value.toUInt32) = (.done, sram written) ∧
          poked.storage = written.storage ∧ poked.dirty = s.dirty) ∧
      (∀ script : List (UInt64 × Request), (∀ x ∈ script, x.2.isAccess = true) →
        ∃ s', (sram s).run script =
            (Request.arrayReplies s.storage.byte [] (script.map Prod.snd), sram s') ∧
          s'.storage.size = 0x8000 ∧ s'.dirty = (s.dirty || script.any fun x => x.2.isWrite) ∧
          (∀ cell, s'.storage.byte cell =
            Request.byteAfter s.storage.byte (script.map Prod.snd).reverse cell) ∧
          (sram s).run? script = some ((sram s).run script)) ∧
      ∀ script mirrored : List (UInt64 × Request),
        (mirrored.map fun x => (x.1, x.2.wrapped)) = (script.map fun x => (x.1, x.2.wrapped)) →
          (sram s).run mirrored = (sram s).run script := by
  obtain ⟨s, hreached, hsize⟩ := exists_reached_sram history
  refine ⟨s, hreached, hsize, ?_, ?_, ?_, ?_⟩
  · intro now width address value
    have hcells := Sram.byte_write hsize width address value
    refine ⟨s.write width address value, rfl, ?_, fun cell hother => ?_⟩
    · rw [hcells, if_pos rfl, Width.toNat_lane]
    · rw [hcells, if_neg hother.symm]
  · intro now address value
    refine ⟨s.poke address value, s.write .byte address value.toUInt32, rfl, rfl, ?_, rfl⟩
    rw [Sram.write, Width.lane_byte]
  · intro script haccesses
    have hstart : ∀ cell, s.storage.byte cell = Request.byteAfter s.storage.byte [] cell :=
      fun _ => rfl
    obtain ⟨s', hrun, hsize', hdirty, hbytes⟩ := run_accesses hsize hstart haccesses
    rw [List.append_nil] at hbytes
    exact ⟨s', hrun, hsize', hdirty, hbytes, run?_eq (c := sram s) hsize script⟩
  · intro script mirrored hsame
    rw [← run_wrapped _ mirrored, hsame, run_wrapped]

/-- A write of four bytes to a mirrored address, and a read of two. -/
example :
    ((fresh .sram).run
      [(0, .write .word 0x0E009235 0x44332211), (0, .read .half 0x1235)]).1 =
        [.done, .value 0x2222] := by
  decide +kernel

end Chip

end SaveChip
