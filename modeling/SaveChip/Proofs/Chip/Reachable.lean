import SaveChip.Chip.Request
import SaveChip.Proofs.Eeprom.Admissible

/-! # The chips that occur

A chip occurs if some run leaves it of a fresh one (`Chip.reached`): requests of every sort, each
at a clock reading of its own, snapshots of any bytes among them.  No request changes the kind of
a chip (`kind_respond`), and every chip that occurs is sound (`sound_reached`): its storage has
the size of its kind, and the registers of a serial chip are admissible. -/

namespace SaveChip

namespace Chip

variable {c : Chip}

/-- A storage of the right size, under admissible registers where there are any. -/
def Sound : Chip → Prop
  | absent => True
  | sram s => s.storage.size = Sram.capacity
  | eeprom e => e.Sound

theorem sound_fresh (k : Kind) : (fresh k).Sound := by
  cases k with
  | absent => trivial
  | sram => simp [fresh, Sound, Sram.fresh]
  | eeprom capacity => exact Eeprom.sound_fresh capacity

theorem Sound.size_eq (h : c.Sound) : c.size = c.kind.bytes := by
  cases c with
  | absent => rfl
  | sram s => exact h
  | eeprom e => exact h.size

/-! ### Loading -/

/-- A header that passes touches the registers of a serial chip and nothing else. -/
theorem withHeader?_eq_ok {h : Header} {c' : Chip} (hc : c.withHeader? h = .ok c') :
    c' = c ∨ ∃ e r, c = eeprom e ∧ Registers.ofHeader? e.capacity h = .ok r ∧
      c' = eeprom { e with toRegisters := r } := by
  cases c with
  | absent | sram =>
      simp only [withHeader?] at hc
      split at hc
      · cases hc
      · cases hc
        exact .inl rfl
  | eeprom e =>
      simp only [withHeader?] at hc
      split at hc
      · rename_i r hr
        cases hc
        exact .inr ⟨e, r, rfl, hr, rfl⟩
      · cases hc

/-- Loading either leaves the chip alone, or it replaces the whole storage and, on a serial chip,
the registers by those of a header that passed its checks. -/
theorem load_cases (c : Chip) (r : Reader) :
    (c.load r).2.1 = c ∨ ∃ h c' bs, c.withHeader? h = .ok c' ∧ bs.length = c.size ∧
      (c.load r).2.1 = c'.withContents bs := by
  unfold load
  split
  · exact .inl rfl
  · rename_i h r' _
    split
    · exact .inl rfl
    · rename_i c' hc
      split
      · rename_i bs r'' hget
        have hshape := Reader.shape_get hget
        exact .inr ⟨h, c', bs, hc, Shape.bytes.inj hshape, rfl⟩
      · exact .inl rfl

/-- Loading that fails leaves the chip alone. -/
theorem load_eq_self {r : Reader} (h : (c.load r).1 ≠ .loaded) : (c.load r).2.1 = c := by
  unfold load at h ⊢
  split
  · rfl
  · split
    · rfl
    · split
      · rename_i hheader _ _ hpassed _ _ _ hget
        rw [hheader] at h
        dsimp only at h
        rw [hpassed] at h
        dsimp only at h
        rw [hget] at h
        exact absurd rfl h
      · rfl

theorem restore_eq_self {bs : List UInt8} (h : (c.restore bs).1 ≠ .loaded) :
    (c.restore bs).2 = c := by
  unfold restore at h ⊢
  split
  · rfl
  · rename_i hlength
    rw [if_neg hlength] at h
    exact load_eq_self h

/-- A serial chip looks at its registers neither to judge a snapshot nor to take it over. -/
theorem load_registers (e : Eeprom) (regs : Registers) (r : Reader) :
    ((eeprom { e with toRegisters := regs }).load r).1 = ((eeprom e).load r).1 ∧
      ((eeprom { e with toRegisters := regs }).load r).2.2 = ((eeprom e).load r).2.2 ∧
      (((eeprom e).load r).1 = .loaded →
        ((eeprom { e with toRegisters := regs }).load r).2.1 = ((eeprom e).load r).2.1) := by
  unfold load withHeader?
  cases Header.load r with
  | mk header r' =>
      cases header with
      | none => exact ⟨rfl, rfl, nofun⟩
      | some h =>
          dsimp only
          cases Registers.ofHeader? e.capacity h with
          | error x => exact ⟨rfl, rfl, nofun⟩
          | ok loaded =>
              have hsize : (eeprom { e with toRegisters := regs }).size = (eeprom e).size := rfl
              dsimp only
              rw [hsize]
              split
              · exact ⟨rfl, rfl, fun _ => rfl⟩
              · exact ⟨rfl, rfl, nofun⟩

theorem restore_registers (e : Eeprom) (regs : Registers) (bs : List UInt8) :
    ((eeprom { e with toRegisters := regs }).restore bs).1 = ((eeprom e).restore bs).1 ∧
      (((eeprom e).restore bs).1 = .loaded →
        ((eeprom { e with toRegisters := regs }).restore bs).2 = ((eeprom e).restore bs).2) := by
  obtain ⟨houtcome, -, hloaded⟩ := load_registers e regs (.ofBuffer bs)
  have hsize : (eeprom { e with toRegisters := regs }).snapshotSize = (eeprom e).snapshotSize := rfl
  unfold restore
  rw [hsize]
  split
  · exact ⟨rfl, nofun⟩
  · exact ⟨houtcome, hloaded⟩

theorem kind_load (c : Chip) (r : Reader) : (c.load r).2.1.kind = c.kind := by
  obtain hsame | ⟨h, c', bs, hc, -, hload⟩ := load_cases c r
  · rw [hsame]
  · rw [hload]
    obtain rfl | ⟨e, regs, rfl, -, rfl⟩ := withHeader?_eq_ok hc
    · cases c' <;> rfl
    · rfl

theorem Sound.load (hs : c.Sound) (r : Reader) : (c.load r).2.1.Sound := by
  obtain hsame | ⟨h, c', bs, hc, hlen, hload⟩ := load_cases c r
  · rw [hsame]
    exact hs
  · rw [hload]
    have hsize : (Storage.ofList bs).size = c.kind.bytes := by
      rw [Storage.size_ofList, hlen, hs.size_eq]
    obtain rfl | ⟨e, regs, rfl, hregs, rfl⟩ := withHeader?_eq_ok hc
    · cases c' with
      | absent => trivial
      | sram s => exact hsize
      | eeprom e => exact ⟨hsize, hs.registers⟩
    · exact ⟨hsize, Registers.admissible_of_ofHeader? hregs⟩

theorem kind_restore (c : Chip) (bs : List UInt8) : (c.restore bs).2.kind = c.kind := by
  unfold restore
  split
  · rfl
  · exact kind_load c _

theorem Sound.restore (hs : c.Sound) (bs : List UInt8) : (c.restore bs).2.Sound := by
  unfold Chip.restore
  split
  · exact hs
  · exact hs.load _

/-! ### Requests and runs -/

theorem kind_respond (c : Chip) (now : UInt64) (request : Request) :
    (c.respond now request).2.kind = c.kind := by
  cases request with
  | restore bs => exact kind_restore c bs
  | loadFrom buffer => exact kind_load c _
  | readBit | writeBit => cases c <;> simp [respond, kind, clockOut, clockIn]
  | write | poke | reset | loadFile | takeDirty => cases c <;> rfl
  | _ => rfl

theorem Sound.write (hs : c.Sound) (width : Width) (address value : UInt32) :
    (c.write width address value).Sound := by
  cases c with
  | absent | eeprom => exact hs
  | sram s => exact (Storage.size_setByte ..).trans hs

theorem Sound.poke (hs : c.Sound) (address : UInt32) (value : UInt8) :
    (c.poke address value).Sound := by
  cases c with
  | absent | eeprom => exact hs
  | sram s => exact (Storage.size_setByte ..).trans hs

theorem Sound.loadFile (hs : c.Sound) (bs : List UInt8) : (c.loadFile bs).Sound := by
  cases c with
  | absent => trivial
  | sram s => exact (Storage.size_overwrite ..).trans hs
  | eeprom e => exact Eeprom.Sound.loadFile hs bs

theorem Sound.respond (hs : c.Sound) (now : UInt64) (request : Request) :
    (c.respond now request).2.Sound := by
  cases request with
  | restore bs => exact hs.restore bs
  | loadFrom buffer => exact hs.load _
  | write width address value => exact hs.write width address value
  | poke address value => exact hs.poke address value
  | loadFile bs => exact hs.loadFile bs
  | takeDirty =>
      cases c with
      | absent | sram => exact hs
      | eeprom e => exact ⟨hs.size, hs.registers⟩
  | reset =>
      cases c with
      | absent | sram => exact hs
      | eeprom e => exact Eeprom.Sound.reset hs
  | readBit =>
      cases c with
      | absent | sram => exact hs
      | eeprom e => exact Eeprom.Sound.clockOut hs now
  | writeBit value =>
      cases c with
      | absent | sram => exact hs
      | eeprom e => exact Eeprom.Sound.clockIn hs now _
  | _ => exact hs

theorem kind_run (c : Chip) (script : List (UInt64 × Request)) :
    (c.run script).2.kind = c.kind := by
  induction script generalizing c with
  | nil => rfl
  | cons x script ih =>
      rw [run, ih, kind_respond]

theorem Sound.run (hs : c.Sound) (script : List (UInt64 × Request)) : (c.run script).2.Sound := by
  induction script generalizing c with
  | nil => exact hs
  | cons x script ih => exact ih (hs.respond x.1 x.2)

/-- A run leaves a sound serial chip a sound one of the same capacity. -/
theorem exists_run_eeprom {e : Eeprom} (h : e.Sound) (script : List (UInt64 × Request)) :
    ∃ e', ((eeprom e).run script).2 = eeprom e' ∧ e'.Sound ∧ e'.capacity = e.capacity := by
  have hkind := kind_run (eeprom e) script
  have hsound := Sound.run (c := eeprom e) h script
  cases hchip : ((eeprom e).run script).2 with
  | absent | sram =>
      rw [hchip] at hkind
      cases hkind
  | eeprom e' =>
      rw [hchip] at hkind hsound
      exact ⟨e', rfl, hsound, Kind.eeprom.inj hkind⟩

/-- No request of the run is one that `bad` rules out on the chip that gets it. -/
def Avoids (bad : Chip → Request → Prop) (c : Chip) : List (UInt64 × Request) → Prop
  | [] => True
  | (now, request) :: rest => ¬bad c request ∧ Avoids bad (c.respond now request).2 rest

theorem avoids_of_forall {bad : Chip → Request → Prop} {script : List (UInt64 × Request)}
    (h : ∀ x ∈ script, ∀ c, ¬bad c x.2) : c.Avoids bad script := by
  induction script generalizing c with
  | nil => trivial
  | cons x script ih =>
      obtain ⟨hfirst, hrest⟩ := List.forall_mem_cons.mp h
      exact ⟨hfirst c, ih hrest⟩

/-- What holds of a chip holds after a run if no request of the run takes it away. -/
theorem Avoids.run {P : Chip → Prop} {bad : Chip → Request → Prop} {script : List (UInt64 × Request)}
    (h : Avoids bad c script)
    (hstep : ∀ c, P c → ∀ x ∈ script, ¬bad c x.2 → P (c.respond x.1 x.2).2) (hc : P c) :
    P (c.run script).2 := by
  induction script generalizing c with
  | nil => exact hc
  | cons x script ih =>
      have hnext := hstep c hc x List.mem_cons_self h.1
      exact ih h.2 (fun c hc y hy => hstep c hc y (List.mem_cons_of_mem x hy)) hnext

/-- The chip that a run leaves of a fresh one. -/
def reached (k : Kind) (script : List (UInt64 × Request)) : Chip := ((fresh k).run script).2

@[simp] theorem kind_fresh (k : Kind) : (fresh k).kind = k := by
  cases k <;> rfl

@[simp] theorem kind_reached (k : Kind) (script : List (UInt64 × Request)) :
    (reached k script).kind = k := by
  rw [reached, kind_run, kind_fresh]

theorem sound_reached (k : Kind) (script : List (UInt64 × Request)) : (reached k script).Sound :=
  (sound_fresh k).run script

/-- A serial chip that occurs is sound, and has the capacity it was made with. -/
theorem sound_of_reached {capacity : Capacity} {script : List (UInt64 × Request)} {e : Eeprom}
    (he : reached (.eeprom capacity) script = eeprom e) : e.Sound ∧ e.capacity = capacity := by
  have hsound := sound_reached (.eeprom capacity) script
  have hkind := kind_reached (.eeprom capacity) script
  rw [he] at hsound hkind
  exact ⟨hsound, Kind.eeprom.inj hkind⟩

end Chip

end SaveChip
