import SaveChip.Proofs.Snapshot.Restore

/-! # A snapshot brings the chip back

Two chips are twins if they differ at most in the dirty flag.  Twins have the same snapshot, they
answer every request alike but for the flag itself, and they stay twins (`Twin.respond`,
`Twin.run`): nothing that a chip does depends on the flag.

A chip takes the snapshot of another one exactly if the two are of one kind, and it is then the
other's twin (`restore_snapshot`).  Hence it goes on as the other does, from whatever state that
one was in (`resume_reached`). -/

namespace SaveChip

/-- A reply with the dirty flag left out. -/
def Reply.withoutDirty : Reply → Reply
  | .dirty _ => .dirty false
  | reply => reply

/-- The sizes of the storage tell the kinds apart. -/
theorem Kind.bytes_inj {k l : Kind} (h : k.bytes = l.bytes) : k = l := by
  rcases k with _ | _ | (_ | _) <;> rcases l with _ | _ | (_ | _) <;>
    first | rfl | exact absurd h (by decide)

namespace Eeprom

theorem clockIn_clearDirty (e : Eeprom) (now : UInt64) (bit : Bool) :
    { ({ e with dirty := false } : Eeprom).clockIn now bit with dirty := false } =
      { e.clockIn now bit with dirty := false } := by
  unfold clockIn
  cases hp : e.phase with
  | idle =>
      simp only [hp, decode, settle_eq]
      split
      · rfl
      · split <;> rfl
  | writeAddress | readAddress =>
      simp only [hp, shiftAddress, addressPhaseBits, finalAddress, shiftedAddress]
      split
      · rfl
      · split <;> rfl
  | writeData =>
      simp only [hp, shiftIn, block]
      split <;> rfl
  | readData | invalid => rfl

theorem output_clearDirty (e : Eeprom) (now : UInt64) :
    ({ e with dirty := false } : Eeprom).output now = e.output now := by
  unfold output
  cases e.phase with
  | idle => simp only [settle_eq]
  | readData | writeData | invalid | writeAddress | readAddress => rfl

theorem clockOut_clearDirty (e : Eeprom) (now : UInt64) :
    ({ e with dirty := false } : Eeprom).clockOut now = { e.clockOut now with dirty := false } := by
  unfold clockOut
  cases hp : e.phase with
  | idle => simp only [hp, settle_eq]
  | readData =>
      simp only [hp, shiftOut]
      split <;> rfl
  | writeData | invalid | writeAddress | readAddress => rfl

end Eeprom

namespace Chip

variable {a b c : Chip}

/-- The protocol registers of a serial chip. -/
def registers? : Chip → Option Registers
  | eeprom e => some e.toRegisters
  | absent | sram _ => none

/-- The chip with the dirty flag of another. -/
def withDirtyOf (a b : Chip) : Chip :=
  match a with
  | absent => absent
  | sram s => sram { s with dirty := b.dirty }
  | eeprom e => eeprom { e with dirty := b.dirty }

/-! ### Nothing depends on the dirty flag -/

/-- Chips that differ at most in the dirty flag. -/
def Twin (a b : Chip) : Prop := a.clearDirty = b.clearDirty

theorem save_clearDirty (c : Chip) (w : Writer) : c.clearDirty.save w = c.save w := by
  cases c <;> rfl

theorem snapshot_clearDirty (c : Chip) : c.clearDirty.snapshot = c.snapshot := by
  cases c <;> rfl

@[simp] theorem kind_clearDirty (c : Chip) : c.clearDirty.kind = c.kind := by
  cases c <;> rfl

@[simp] theorem size_clearDirty (c : Chip) : c.clearDirty.size = c.size := by
  cases c <;> rfl

theorem withHeader?_clearDirty (c : Chip) (h : Header) :
    c.clearDirty.withHeader? h = (c.withHeader? h).map clearDirty := by
  rw [withHeader?_eq, withHeader?_eq, kind_clearDirty]
  cases h.fault? c.kind with
  | some x => rfl
  | none => cases c <;> rfl

theorem load_clearDirty (c : Chip) (r : Reader) :
    c.clearDirty.load r = ((c.load r).1, (c.load r).2.1.clearDirty, (c.load r).2.2) := by
  unfold load
  rw [size_clearDirty]
  cases Header.load r with
  | mk h r' =>
      cases h with
      | none => rfl
      | some h =>
          dsimp only
          rw [withHeader?_clearDirty]
          cases c.withHeader? h with
          | error x => rfl
          | ok c' =>
              dsimp only [Except.map]
              split
              · cases c' <;> rfl
              · rfl

theorem restore_clearDirty (c : Chip) (bs : List UInt8) :
    c.clearDirty.restore bs = ((c.restore bs).1, (c.restore bs).2.clearDirty) := by
  unfold restore snapshotSize
  rw [size_clearDirty, load_clearDirty]
  split <;> rfl

/-- The flag changes neither what is answered to a request nor what becomes of the chip. -/
theorem respond_clearDirty (c : Chip) (now : UInt64) (request : Request) :
    (c.clearDirty.respond now request).1.withoutDirty = (c.respond now request).1.withoutDirty ∧
      (c.clearDirty.respond now request).2.clearDirty =
        (c.respond now request).2.clearDirty := by
  have hidem : ∀ c : Chip, c.clearDirty.clearDirty = c.clearDirty := by
    intro c
    cases c <;> rfl
  cases request with
  | restore bs =>
      simp only [respond, restore_clearDirty, hidem, and_self]
  | loadFrom buffer =>
      simp only [respond, load_clearDirty, hidem, and_self]
  | snapshot =>
      simp only [respond, snapshot_clearDirty, hidem, and_self]
  | saveInto length =>
      simp only [respond, save_clearDirty, hidem, and_self]
  | readBit =>
      cases c with
      | absent | sram => exact ⟨rfl, rfl⟩
      | eeprom e =>
          simp only [respond, clearDirty, output, clockOut, Eeprom.output_clearDirty,
            Eeprom.clockOut_clearDirty, and_self]
  | writeBit value =>
      cases c with
      | absent | sram => exact ⟨rfl, rfl⟩
      | eeprom e =>
          refine ⟨rfl, ?_⟩
          simp only [respond, clearDirty, clockIn, Eeprom.clockIn_clearDirty]
  | _ => cases c <;> exact ⟨rfl, rfl⟩

namespace Twin

theorem respond (h : Twin a b) (now : UInt64) (request : Request) :
    (a.respond now request).1.withoutDirty = (b.respond now request).1.withoutDirty ∧
      Twin (a.respond now request).2 (b.respond now request).2 := by
  have ha := respond_clearDirty a now request
  have hb := respond_clearDirty b now request
  rw [h] at ha
  exact ⟨ha.1.symm.trans hb.1, ha.2.symm.trans hb.2⟩

theorem run (h : Twin a b) (script : List (UInt64 × Request)) :
    (a.run script).1.map Reply.withoutDirty = (b.run script).1.map Reply.withoutDirty ∧
      Twin (a.run script).2 (b.run script).2 := by
  induction script generalizing a b with
  | nil => exact ⟨rfl, h⟩
  | cons x script ih =>
      obtain ⟨hreply, hnext⟩ := h.respond x.1 x.2
      obtain ⟨hreplies, hlast⟩ := ih hnext
      refine ⟨?_, hlast⟩
      rw [Chip.run, Chip.run, List.map_cons, List.map_cons, hreply, hreplies]

theorem snapshot (h : Twin a b) : a.snapshot = b.snapshot := by
  rw [← snapshot_clearDirty a, ← snapshot_clearDirty b, h]

end Twin

/-! ### Snapshots of chips that occur -/

/-- The header of a sound serial chip has no fault, and it holds the registers of the chip. -/
theorem Eeprom.Sound.header_eq {e : Eeprom} (h : e.Sound) :
    e.header.fault? (.eeprom e.capacity) = none ∧ Registers.ofHeader e.header = e.toRegisters := by
  have hback : Registers.ofHeader? e.capacity e.header = .ok e.toRegisters :=
    Registers.ofHeader?_toHeader h.registers
  rw [Registers.ofHeader?_eq] at hback
  cases hfault : e.header.fault? (.eeprom e.capacity) with
  | some x =>
      rw [hfault] at hback
      cases hback
  | none =>
      rw [hfault] at hback
      exact ⟨rfl, Except.ok.inj hback⟩

theorem Sound.fault?_header (h : a.Sound) : a.header.fault? a.kind = none := by
  cases a with
  | absent | sram => rfl
  | eeprom e => exact (Eeprom.Sound.header_eq h).1

theorem Sound.length_snapshot (h : a.Sound) : a.snapshot.length = 33 + a.kind.bytes := by
  rw [snapshot_eq, List.length_append, Header.length_encode, Header.width_eq, length_contents,
    h.size_eq]

/-- A sound chip writes a snapshot that has no fault for its kind. -/
theorem Sound.snapshotFault?_snapshot (h : a.Sound) :
    snapshotFault? a.kind a.snapshot = none := by
  have hlength := h.length_snapshot
  rw [snapshotFault?, if_neg (not_not_intro hlength), snapshot_eq, Header.ofBytes_encode]
  exact h.fault?_header

/-- What a snapshot describes to a chip of the same kind is the chip it was taken from, except
for the dirty flag. -/
theorem Sound.thawed_snapshot (h : a.Sound) (hk : a.kind = b.kind) :
    b.thawed a.snapshot = a.withDirtyOf b := by
  have hbody : a.snapshot.drop 33 = a.contents := by
    rw [snapshot_eq]
    exact List.drop_left' a.header.length_encode
  rw [thawed, hbody, snapshot_eq, Header.ofBytes_encode]
  cases a with
  | absent => cases b <;> first | rfl | cases hk
  | sram s => cases b <;> first | rfl | cases hk
  | eeprom e =>
      cases b with
      | absent | sram => cases hk
      | eeprom e' =>
          have hcapacity : e.capacity = e'.capacity := Kind.eeprom.inj hk
          have hregs : Registers.ofHeader e.header = e.toRegisters :=
            (Eeprom.Sound.header_eq h).2
          simp only [withRegistersOf, withContents, withDirtyOf, header]
          rw [hregs, ← hcapacity]
          rfl

theorem twin_withDirtyOf (a b : Chip) : Twin (a.withDirtyOf b) a := by
  cases a <;> rfl

theorem dirty_withDirtyOf (hk : a.kind = b.kind) : (a.withDirtyOf b).dirty = b.dirty := by
  cases a <;> cases b <;> first | rfl | cases hk

theorem restore_snapshot (ha : a.Sound) (hb : b.Sound) (hk : a.kind = b.kind) :
    b.restore a.snapshot = (.loaded, a.withDirtyOf b) := by
  rw [restore_eq hb.size_eq, ← hk, ha.snapshotFault?_snapshot, ha.thawed_snapshot hk]

theorem restore_snapshot_of_ne (ha : a.Sound) (hb : b.Sound) (hk : a.kind ≠ b.kind) :
    b.restore a.snapshot =
      (.rejected (.lengthMismatch (33 + b.kind.bytes) (33 + a.kind.bytes)), b) := by
  have hbytes : a.kind.bytes ≠ b.kind.bytes := fun h => hk (Kind.bytes_inj h)
  have hlength : a.snapshot.length ≠ 33 + b.kind.bytes := by
    rw [ha.length_snapshot]
    omega
  rw [restore_eq hb.size_eq, snapshotFault?, if_pos hlength, ha.length_snapshot]

/-- **A snapshot brings back the chip it was taken from**, on any chip of the same kind and on no
other: the storage and the registers are those of the chip it was taken from, the dirty flag stays
as it was, and from there on the two cannot be told apart but by their flags. -/
theorem resume_reached (ka kb : Kind) (sa sb : List (UInt64 × Request)) :
    let a := reached ka sa
    let b := reached kb sb
    let outcome := (b.restore a.snapshot).1
    let b' := (b.restore a.snapshot).2
    (outcome = .loaded ↔ a.kind = b.kind) ∧
      (outcome ≠ .loaded → b' = b) ∧
      (outcome = .loaded →
        b'.storage? = a.storage? ∧ b'.registers? = a.registers? ∧ b'.dirty = b.dirty ∧
          ∀ script,
            (b'.run script).1.map Reply.withoutDirty = (a.run script).1.map Reply.withoutDirty ∧
              (b'.run script).2.snapshot = (a.run script).2.snapshot) := by
  intro a b
  have ha : a.Sound := sound_reached ka sa
  have hb : b.Sound := sound_reached kb sb
  by_cases hk : a.kind = b.kind
  · rw [restore_snapshot ha hb hk]
    refine ⟨⟨fun _ => hk, fun _ => rfl⟩, fun h => absurd rfl h, fun _ => ?_⟩
    refine ⟨?_, ?_, ?_, fun script => ?_⟩
    · cases a <;> rfl
    · cases a <;> rfl
    · exact dirty_withDirtyOf hk
    · have htwins := (twin_withDirtyOf a b).run script
      exact ⟨htwins.1, htwins.2.snapshot⟩
  · rw [restore_snapshot_of_ne ha hb hk]
    refine ⟨⟨fun h => ?_, fun h => absurd h hk⟩, fun _ => rfl, fun h => ?_⟩
    · cases h
    · cases h

end Chip

end SaveChip
