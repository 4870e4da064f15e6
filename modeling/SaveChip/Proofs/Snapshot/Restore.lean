import SaveChip.Proofs.Chip.Reachable
import SaveChip.Proofs.Snapshot.Layout

/-! # Which snapshots a chip accepts

`snapshotFault?` names the first fault of a snapshot: its length, the size mask in its header
and, for a serial chip, the phase code, the block address and the transfer counters, in this
order.  `Header.ofBytes` says at which offsets they lie.  A chip refuses a snapshot for exactly
that fault and is then the chip it was; a snapshot without one is taken over whole
(`restore_eq`). -/

namespace SaveChip

/-! ### The faults of a snapshot -/

/-- The most command or address bits under a phase code. -/
def receivedBound (c : Capacity) (code : UInt32) : Nat :=
  if code = 0 then 1
  else if code = 6 then c.addressBits - 1
  else if code = 7 then c.addressBits
  else 0

/-- The most data bits under a phase code. -/
def shiftedBound (code : UInt32) : Nat :=
  if code = 2 then 64 else if code = 3 then 67 else 0

/-- The largest command register under a phase code. -/
def commandBound (code received : UInt32) : Nat :=
  if code = 0 ∧ received = 1 then 1 else 3

/-- The first fault of the registers in a header, for a serial chip of the given capacity. -/
def Header.registersFault? (c : Capacity) (h : Header) : Option SnapshotError :=
  if h.phase ∉ [0, 2, 3, 5, 6, 7] then
    some (.unknownPhase h.phase)
  else if h.phase ∈ [2, 3] ∧ c.addressMask < h.address then
    some (.addressOutOfRange h.address)
  else if receivedBound c h.phase < h.received.toNat ∨ shiftedBound h.phase < h.shifted.toNat ∨
      commandBound h.phase h.received < h.command.toNat then
    some (.transferOutOfRange h.phase h.received h.shifted h.command)
  else
    none

/-- The first fault of a header for a chip of the given kind. -/
def Header.fault? (k : Kind) (h : Header) : Option SnapshotError :=
  if h.sizeMask ≠ k.sizeMask then
    some (.sizeMaskMismatch k.sizeMask h.sizeMask)
  else
    match k with
    | .absent | .sram => none
    | .eeprom c => h.registersFault? c

/-- The first fault of a snapshot for a chip of the given kind. -/
def snapshotFault? (k : Kind) (bs : List UInt8) : Option SnapshotError :=
  if bs.length ≠ 33 + k.bytes then
    some (.lengthMismatch (33 + k.bytes) bs.length)
  else
    (Header.ofBytes bs).fault? k

/-! ### What an accepted snapshot holds -/

/-- The registers in a header whose phase code is known. -/
def Registers.ofHeader (h : Header) : Registers where
  ready := h.ready
  received := h.received.toNat
  shifted := h.shifted.toNat
  address := h.address
  phase := (Phase.ofCode? h.phase).getD .idle
  command := h.command.toNat
  deadline := h.deadline

/-- The chip with the registers in a header, if it has registers. -/
def Chip.withRegistersOf (c : Chip) (h : Header) : Chip :=
  match c with
  | eeprom e => eeprom { e with toRegisters := .ofHeader h }
  | absent | sram _ => c

/-- The chip that a snapshot describes.  The dirty flag is not part of it. -/
def Chip.thawed (c : Chip) (bs : List UInt8) : Chip :=
  (c.withRegistersOf (.ofBytes bs)).withContents (bs.drop 33)

/-! ### The header check -/

namespace Phase

theorem ofCode?_eq_none_iff {code : UInt32} : ofCode? code = none ↔ code ∉ [0, 2, 3, 5, 6, 7] := by
  unfold ofCode?
  grind

theorem receivedBound_code (c : Capacity) (p : Phase) : receivedBound c p.code = p.maxReceived c := by
  cases p <;> rfl

theorem shiftedBound_code (p : Phase) : shiftedBound p.code = p.maxShifted := by
  cases p <;> rfl

theorem commandBound_code (p : Phase) (received : UInt32) :
    commandBound p.code received = p.maxCommand received.toNat := by
  have hone : received = 1 ↔ received.toNat = 1 := by
    rw [← UInt32.toNat_inj]
    rfl
  cases p <;> simp [commandBound, code, maxCommand, hone]

theorem code_mem_transfers (p : Phase) : p.code ∈ [2, 3] ↔ p.transfersData = true := by
  cases p <;> decide

end Phase

theorem Header.fault?_of_ne {k : Kind} {h : Header} (hmask : h.sizeMask ≠ k.sizeMask) :
    h.fault? k = some (.sizeMaskMismatch k.sizeMask h.sizeMask) := if_pos hmask

theorem Header.fault?_eeprom {c : Capacity} {h : Header} (hmask : h.sizeMask = c.sizeMask) :
    h.fault? (.eeprom c) = h.registersFault? c := if_neg (not_not_intro hmask)

theorem Registers.ofHeader?_eq (c : Capacity) (h : Header) :
    ofHeader? c h =
      match h.fault? (.eeprom c) with
      | some x => .error x
      | none => .ok (ofHeader h) := by
  unfold ofHeader?
  by_cases hmask : h.sizeMask = c.sizeMask
  · rw [if_neg (not_not_intro hmask), Header.fault?_eeprom hmask]
    unfold Header.registersFault? ofHeader
    cases hp : Phase.ofCode? h.phase with
    | none => rw [if_pos (Phase.ofCode?_eq_none_iff.mp hp)]
    | some p =>
        have hknown : ¬h.phase ∉ [0, 2, 3, 5, 6, 7] := by
          rw [← Phase.ofCode?_eq_none_iff, hp]
          simp
        rw [if_neg hknown]
        simp only [← Phase.code_of_ofCode? hp, Phase.code_mem_transfers,
          Phase.receivedBound_code, Phase.shiftedBound_code, Phase.commandBound_code,
          Option.getD_some]
        by_cases haddress : p.transfersData = true ∧ c.addressMask < h.address
        · rw [if_pos haddress, if_pos haddress]
        · rw [if_neg haddress, if_neg haddress]
          split <;> rfl
  · rw [if_pos hmask, Header.fault?_of_ne hmask]
    rfl

theorem Registers.eq_of_ofHeader? {c : Capacity} {h : Header} {r : Registers}
    (hr : ofHeader? c h = .ok r) : r = ofHeader h ∧ r.phase.code = h.phase := by
  have hfaultless := hr
  rw [ofHeader?_eq] at hfaultless
  constructor
  · cases hfault : h.fault? (.eeprom c) with
    | some x =>
        rw [hfault] at hfaultless
        cases hfaultless
    | none =>
        rw [hfault] at hfaultless
        exact (Except.ok.inj hfaultless).symm
  · unfold ofHeader? at hr
    split at hr
    · cases hr
    · split at hr
      · cases hr
      · rename_i hphase
        split at hr
        · cases hr
        · split at hr
          · cases hr
          · cases hr
            exact Phase.code_of_ofCode? hphase

/-! ### Restoring -/

theorem Reader.getAll_full {r : Reader} {ss : List Shape}
    (h : (r.getAll ss).1.length = ss.length) :
    (r.getAll ss).2.position = r.position + Shape.totalWidth ss ∧
      (r.getAll ss).2.buffer = r.buffer := by
  induction ss generalizing r with
  | nil => exact ⟨rfl, rfl⟩
  | cons s ss ih =>
      unfold getAll at h ⊢
      split at h
      · rename_i f r' hget
        obtain ⟨hposition, hbuffer⟩ := ih (Nat.succ.inj h)
        refine ⟨?_, hbuffer.trans (buffer_get hget)⟩
        rw [hposition, position_get hget, Shape.totalWidth_cons, Nat.add_assoc]
      · cases h

theorem Header.position_load {r r' : Reader} {h : Header} (hload : load r = (some h, r')) :
    r'.position = r.position + width ∧ r'.buffer = r.buffer := by
  have hfields : ofFields? (r.getAll shapes).1 = some h := congrArg Prod.fst hload
  have hlength : (r.getAll shapes).1.length = shapes.length := by
    unfold ofFields? at hfields
    split at hfields
    · rename_i heq
      rw [heq]
      rfl
    · cases hfields
  have hrest : r' = (r.getAll shapes).2 := (congrArg Prod.snd hload).symm
  rw [hrest]
  exact Reader.getAll_full hlength

namespace Chip

variable {c : Chip}

theorem snapshotSize_le_of_loaded {bs : List UInt8} (h : (c.load (.ofBuffer bs)).1 = .loaded) :
    c.snapshotSize ≤ bs.length := by
  unfold load at h
  split at h
  · cases h
  · rename_i header r hheader
    obtain ⟨hposition, hbuffer⟩ := Header.position_load hheader
    split at h
    · cases h
    · split at h
      · rename_i hget
        apply Nat.le_of_not_lt
        intro hshort
        have hnone : r.get (.bytes c.size) = none := by
          rw [Reader.get_eq_none_iff, hposition, hbuffer]
          simpa [Reader.ofBuffer, Shape.width, snapshotSize] using hshort
        rw [hnone] at hget
        cases hget
      · cases h

/-- A snapshot that is taken over is loaded from the front of its bytes. -/
theorem restore_of_loaded {bs : List UInt8} (h : (c.restore bs).1 = .loaded) :
    (c.load (.ofBuffer bs)).1 = .loaded ∧ (c.restore bs).2 = (c.load (.ofBuffer bs)).2.1 := by
  unfold restore at h ⊢
  split
  · rename_i hlength
    rw [if_pos hlength] at h
    cases h
  · rename_i hlength
    rw [if_neg hlength] at h
    exact ⟨h, rfl⟩

/-- The header of a buffer that is long enough is looked at before anything is touched. -/
theorem load_ofBuffer (c : Chip) {bs : List UInt8} (h : c.snapshotSize ≤ bs.length) :
    c.load (.ofBuffer bs) =
      match c.withHeader? (.ofBytes bs) with
      | .error x => (.rejected x, c, ⟨bs, Header.width⟩)
      | .ok c' =>
          (.loaded, c'.withContents ((bs.drop Header.width).take c.size), ⟨bs, c.snapshotSize⟩) := by
  have hheader : Header.width ≤ bs.length := by
    unfold snapshotSize at h
    omega
  have hbody : (⟨bs, Header.width⟩ : Reader).position + (Shape.bytes c.size).width ≤
      (⟨bs, Header.width⟩ : Reader).buffer.length := h
  rw [load, Header.load_ofBuffer hheader]
  dsimp only
  rw [Reader.get_eq hbody]
  rfl

theorem load_eeprom_of_loaded {e : Eeprom} {bs : List UInt8}
    (h : ((eeprom e).load (.ofBuffer bs)).1 = .loaded) :
    ∃ r storage, Registers.ofHeader? e.capacity (.ofBytes bs) = .ok r ∧
      ((eeprom e).load (.ofBuffer bs)).2.1 =
        eeprom { e with toRegisters := r, storage := storage } := by
  have hfits := snapshotSize_le_of_loaded h
  rw [load_ofBuffer _ hfits] at h ⊢
  simp only [withHeader?] at h ⊢
  cases hregs : Registers.ofHeader? e.capacity (.ofBytes bs) with
  | error x =>
      rw [hregs] at h
      cases h
  | ok r => exact ⟨r, _, rfl, rfl⟩

theorem withHeader?_eq (c : Chip) (h : Header) :
    c.withHeader? h =
      match h.fault? c.kind with
      | some x => .error x
      | none => .ok (c.withRegistersOf h) := by
  cases c with
  | absent | sram => grind [withHeader?, Header.fault?, kind, withRegistersOf]
  | eeprom e =>
      rw [withHeader?, Registers.ofHeader?_eq, kind]
      cases h.fault? (.eeprom e.capacity) <;> rfl

theorem restore_eq (hs : c.size = c.kind.bytes) (bs : List UInt8) :
    c.restore bs =
      match snapshotFault? c.kind bs with
      | some x => (.rejected x, c)
      | none => (.loaded, c.thawed bs) := by
  have hsize : c.snapshotSize = 33 + c.kind.bytes := by rw [snapshotSize, Header.width_eq, hs]
  unfold restore snapshotFault?
  rw [hsize]
  by_cases hlen : bs.length ≠ 33 + c.kind.bytes
  · rw [if_pos hlen, if_pos hlen]
  · rw [if_neg hlen, if_neg hlen]
    have hrest : (bs.drop 33).take c.size = bs.drop 33 := by
      apply List.take_of_length_le
      rw [List.length_drop, hs]
      omega
    rw [load_ofBuffer c (by omega), withHeader?_eq]
    cases (Header.ofBytes bs).fault? c.kind with
    | some x => rfl
    | none => rw [thawed, ← hrest, Header.width_eq]

/-- A header without a fault, and contents of the right length, make up a snapshot. -/
theorem restore_encode (hs : c.size = c.kind.bytes) {h : Header} (hfault : h.fault? c.kind = none)
    {contents : List UInt8} (hlength : contents.length = c.kind.bytes) :
    c.restore (h.encode ++ contents) = (.loaded, (c.withRegistersOf h).withContents contents) := by
  have hwhole : (h.encode ++ contents).length = 33 + c.kind.bytes := by
    rw [List.length_append, Header.length_encode, Header.width_eq, hlength]
  have hbody : (h.encode ++ contents).drop 33 = contents := List.drop_left' h.length_encode
  rw [restore_eq hs, snapshotFault?, if_neg (not_not_intro hwhole), Header.ofBytes_encode, hfault]
  simp only [thawed, Header.ofBytes_encode, hbody]

/-- **What a chip makes of any bytes it is given**, in whatever state a run has left it: the
first fault is its answer, and the chip stays as it is; bytes without a fault are taken over. -/
theorem restore_reached (k : Kind) (script : List (UInt64 × Request)) (bs : List UInt8) :
    (reached k script).restore bs =
      match snapshotFault? k bs with
      | some x => (.rejected x, reached k script)
      | none => (.loaded, (reached k script).thawed bs) := by
  have h := restore_eq (sound_reached k script).size_eq bs
  rwa [kind_reached] at h

end Chip

end SaveChip
