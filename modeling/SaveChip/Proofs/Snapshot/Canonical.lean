import SaveChip.Proofs.Chip.Resume

/-! # Canonical snapshots

A chip takes over snapshots that no chip writes: every byte but zero is a raised ready flag, and a
chip without a serial line looks at nothing of the header but the size mask.  What it writes then is
the canonical form of what it has taken over (`snapshot_thawed`), in which the flag is one, or the
header is that of a chip with nothing in flight.  Everything else comes back as it was, registers
included that no run of the line leaves.

So two accepted snapshots describe the same registers and storage exactly if their canonical forms are
equal. -/

namespace SaveChip

/-- The snapshot that a chip of this kind writes after it has taken over the given one. -/
def canonical (k : Kind) (bs : List UInt8) : List UInt8 :=
  match k with
  | .eeprom _ => (if bs.headD 0 = 0 then 0 else 1) :: bs.tail
  | .absent | .sram => (Header.idle k.sizeMask).encode ++ bs.drop 33

theorem canonical_canonical (k : Kind) (bs : List UInt8) :
    canonical k (canonical k bs) = canonical k bs := by
  have hbody : ((Header.idle k.sizeMask).encode ++ bs.drop 33).drop 33 = bs.drop 33 :=
    List.drop_left' (Header.length_encode _)
  cases k with
  | absent | sram => exact congrArg ((Header.idle _).encode ++ ·) hbody
  | eeprom c => by_cases hflag : bs.headD 0 = 0 <;> simp [canonical]

/-! ### Bytes that are read and written again -/

theorem Shape.encode_decode_flag (b : UInt8) :
    (flag.decode [b]).encode = [if b = 0 then 0 else 1] := by
  by_cases hb : b = 0
  · rw [if_pos hb, hb]
    rfl
  · have hraised : (LittleEndian.decode [b] != 0) = true := by
      simpa [LittleEndian.decode] using fun h => hb (UInt8.toNat_inj.mp h)
    rw [if_neg hb, decode, hraised]
    rfl

theorem Shape.encode_decode {s : Shape} (hs : s ≠ .flag) {bs : List UInt8}
    (h : bs.length = s.width) : (s.decode bs).encode = bs := by
  cases s with
  | flag => exact absurd rfl hs
  | word => exact encode_decode_word h
  | dword => exact encode_decode_dword h
  | bytes count => rfl

theorem Shape.encodeAll_decodeAll {ss : List Shape} (hs : ∀ s ∈ ss, s ≠ .flag) {bs : List UInt8}
    (h : totalWidth ss ≤ bs.length) :
    Field.encodeAll (decodeAll ss bs) = bs.take (totalWidth ss) := by
  induction ss generalizing bs with
  | nil => rfl
  | cons s ss ih =>
      obtain ⟨hfirst, hothers⟩ := List.forall_mem_cons.mp hs
      rw [totalWidth_cons] at h ⊢
      have hs : (s.decode (bs.take s.width)).encode = bs.take s.width :=
        encode_decode hfirst (by rw [List.length_take]; omega)
      have hroom : totalWidth ss ≤ (bs.drop s.width).length := by
        rw [List.length_drop]
        omega
      rw [decodeAll, Field.encodeAll, List.flatMap_cons, hs, List.take_add]
      exact congrArg _ (ih hothers hroom)

namespace Header

theorem fields_ofBytes (bs : List UInt8) : (ofBytes bs).fields = Shape.decodeAll shapes bs := by
  simp only [shapes, Shape.decodeAll, Shape.decode, Shape.width, List.drop_drop, fields, ofBytes,
    flagAt, wordAt, dwordAt, List.drop_zero]

/-- A header comes back byte for byte, except for the flag at its front. -/
theorem encode_ofBytes {bs : List UInt8} (h : 33 ≤ bs.length) :
    (ofBytes bs).encode = (if bs.headD 0 = 0 then 0 else 1) :: (bs.tail.take 32) := by
  cases bs with
  | nil => exact absurd h (by decide)
  | cons b rest =>
      have hshapes : shapes = .flag :: shapes.tail := rfl
      have hroom : 32 ≤ rest.length := Nat.le_of_succ_le_succ h
      have hflag : (Shape.flag.decode ((b :: rest).take Shape.flag.width)).encode =
          [if b = 0 then 0 else 1] := Shape.encode_decode_flag b
      have hrest : Field.encodeAll (Shape.decodeAll shapes.tail ((b :: rest).drop Shape.flag.width)) =
          rest.take 32 :=
        Shape.encodeAll_decodeAll (by decide) hroom
      rw [encode, fields_ofBytes, hshapes, Shape.decodeAll, Field.encodeAll, List.flatMap_cons, hflag]
      exact congrArg ((if b = 0 then 0 else 1) :: ·) hrest

end Header

theorem Registers.toHeader_ofHeader {c : Capacity} {h : Header}
    (hfault : h.fault? (.eeprom c) = none) : (ofHeader h).toHeader c = h := by
  have hok : ofHeader? c h = .ok (ofHeader h) := by rw [ofHeader?_eq, hfault]
  obtain ⟨-, hphase⟩ := eq_of_ofHeader? hok
  have hmask : h.sizeMask = c.sizeMask := by
    apply Decidable.byContradiction
    intro hne
    cases (Header.fault?_of_ne hne).symm.trans hfault
  rw [toHeader, hphase, ← hmask]
  simp [ofHeader]

namespace Chip

variable {a b c : Chip} {bs : List UInt8}

/-! ### Accepted snapshots -/

theorem length_of_faultless {k : Kind} (h : snapshotFault? k bs = none) :
    bs.length = 33 + k.bytes ∧ (Header.ofBytes bs).fault? k = none := by
  unfold snapshotFault? at h
  split at h
  · cases h
  · rename_i hlength
    exact ⟨Decidable.not_not.mp hlength, h⟩

/-- A chip writes the canonical form of what it has taken over. -/
theorem snapshot_thawed (h : snapshotFault? c.kind bs = none) :
    (c.thawed bs).snapshot = canonical c.kind bs := by
  obtain ⟨hlength, hheader⟩ := length_of_faultless h
  cases c with
  | absent =>
      have hnone : bs.drop 33 = [] := List.drop_eq_nil_of_le (Nat.le_of_eq hlength)
      rw [snapshot_eq, kind, canonical, hnone]
      rfl
  | sram s =>
      rw [snapshot_eq]
      rfl
  | eeprom e =>
      have hback : ((eeprom e).thawed bs).header = Header.ofBytes bs :=
        Registers.toHeader_ofHeader hheader
      have hcontents : ((eeprom e).thawed bs).contents = bs.drop 33 := rfl
      have hbody : bs.drop 33 = bs.tail.drop 32 := by rw [← List.drop_one, List.drop_drop]
      rw [snapshot_eq, hback, hcontents, Header.encode_ofBytes (by omega), hbody, List.cons_append,
        List.take_append_drop]
      rfl

theorem restore_eq_thawed (hc : c.Sound) (h : (c.restore bs).1 = .loaded) :
    snapshotFault? c.kind bs = none ∧ (c.restore bs).2 = c.thawed bs := by
  rw [restore_eq hc.size_eq] at h ⊢
  cases hfault : snapshotFault? c.kind bs with
  | some x =>
      rw [hfault] at h
      cases h
  | none => exact ⟨rfl, rfl⟩

/-- A chip that has taken over a snapshot writes its canonical form. -/
theorem snapshot_restore (hc : c.Sound) (h : (c.restore bs).1 = .loaded) :
    (c.restore bs).2.snapshot = canonical c.kind bs := by
  obtain ⟨hfault, hthawed⟩ := restore_eq_thawed hc h
  rw [hthawed, snapshot_thawed hfault]

/-! ### What a snapshot tells apart -/

theorem withDirtyOf_eq_iff (hk : a.kind = b.kind) :
    a.withDirtyOf b = b ↔ a.storage? = b.storage? ∧ a.registers? = b.registers? := by
  cases a with
  | absent => cases b <;> first | exact ⟨fun _ => ⟨rfl, rfl⟩, fun _ => rfl⟩ | cases hk
  | sram s =>
      cases b with
      | absent | eeprom => cases hk
      | sram s' =>
          obtain ⟨storage, flag⟩ := s
          obtain ⟨storage', flag'⟩ := s'
          simp [withDirtyOf, storage?, registers?, dirty]
  | eeprom e =>
      cases b with
      | absent | sram => cases hk
      | eeprom e' =>
          obtain ⟨registers, capacity, storage, flag⟩ := e
          obtain ⟨registers', capacity', storage', flag'⟩ := e'
          have hcapacity : capacity = capacity' := Kind.eeprom.inj hk
          simp [withDirtyOf, storage?, registers?, dirty, hcapacity, and_comm]

/-- Chips of one kind have the same snapshot exactly if they are the same but for the flag. -/
theorem Sound.snapshot_eq_iff (ha : a.Sound) (hb : b.Sound) (hk : a.kind = b.kind) :
    a.snapshot = b.snapshot ↔ a.storage? = b.storage? ∧ a.registers? = b.registers? := by
  rw [← withDirtyOf_eq_iff hk]
  constructor
  · intro hsame
    have hself : b.withDirtyOf b = b := (withDirtyOf_eq_iff rfl).mpr ⟨rfl, rfl⟩
    have hfrom := restore_snapshot ha hb hk
    rw [hsame, restore_snapshot hb hb rfl, hself] at hfrom
    exact (congrArg Prod.snd hfrom).symm
  · intro htwin
    rw [← (twin_withDirtyOf a b).snapshot, htwin]

/-- **Taking over a snapshot and writing it again only makes it canonical**, whatever bytes it was
made of and in whatever state a run has left the chip.  A serial chip writes back every byte, the
ready flag as zero or one; any other chip writes the header of a chip with nothing in flight and the
contents.  The canonical form is accepted by every chip of the kind, which then writes just these
bytes.  And of two accepted snapshots, each on a chip of the kind, the canonical forms are equal
exactly if the chips have the same storage and registers afterwards. -/
theorem canonical_reached (k : Kind) (history : List (UInt64 × Request)) {bs : List UInt8}
    (haccepted : ((reached k history).restore bs).1 = .loaded) :
    let after := ((reached k history).restore bs).2
    after.snapshot = canonical k bs ∧
    canonical k (canonical k bs) = canonical k bs ∧
    (∀ history' : List (UInt64 × Request),
      let again := (reached k history').restore (canonical k bs)
      again.1 = .loaded ∧ again.2.snapshot = canonical k bs) ∧
    ∀ (history' : List (UInt64 × Request)) (bs' : List UInt8),
      let other := (reached k history').restore bs'
      other.1 = .loaded →
        (after.storage? = other.2.storage? ∧ after.registers? = other.2.registers? ↔
          canonical k bs = canonical k bs') := by
  intro after
  have hsound : (reached k history).Sound := sound_reached k history
  have hafter : after.Sound := hsound.restore bs
  have hkind : after.kind = k := by rw [kind_restore, kind_reached]
  have hsnapshot : after.snapshot = canonical k bs := by
    rw [snapshot_restore hsound haccepted, kind_reached]
  refine ⟨hsnapshot, canonical_canonical k bs, ?_, ?_⟩
  · intro history' again
    have hagain : again = (.loaded, after.withDirtyOf (reached k history')) := by
      have hrestore := restore_snapshot hafter (sound_reached k history')
        (hkind.trans (kind_reached k history').symm)
      rwa [hsnapshot] at hrestore
    rw [hagain]
    exact ⟨rfl, (twin_withDirtyOf after _).snapshot.trans hsnapshot⟩
  · intro history' bs' other hother
    have hsound' : (reached k history').Sound := sound_reached k history'
    have hkind' : other.2.kind = k := by rw [kind_restore, kind_reached]
    rw [← hafter.snapshot_eq_iff (hsound'.restore bs') (hkind.trans hkind'.symm), hsnapshot,
      snapshot_restore hsound' hother, kind_reached]

/-- A ready flag of 0xFF over registers that no bits leave: an address phase with an address of ones
and a whole command behind it. -/
theorem canonical_reached_flag :
    let registers : List UInt8 :=
      [0xFF, 1, 0, 0] ++ [5, 0, 0, 0] ++ [0, 0, 0, 0] ++ [0xFF, 0xFF, 0xFF, 0xFF] ++ [6, 0, 0, 0] ++
        [3, 0, 0, 0] ++ [8, 7, 6, 5, 4, 3, 2, 1]
    let contents : List UInt8 := List.replicate 512 0xA5
    let chip := reached (.eeprom .small) []
    (chip.restore (0xFF :: registers ++ contents)).1 = .loaded ∧
      (chip.restore (0xFF :: registers ++ contents)).2.snapshot = 1 :: registers ++ contents := by
  intro registers contents chip
  have haccepted : (chip.restore (0xFF :: registers ++ contents)).1 = .loaded := by decide +kernel
  obtain ⟨hsnapshot, -⟩ := canonical_reached (.eeprom .small) [] haccepted
  exact ⟨haccepted, hsnapshot⟩

end Chip

end SaveChip
