import SaveChip.Proofs.Chip.Confinement
import SaveChip.Proofs.Snapshot.Restore

/-! # What raises the dirty flag

Two requests lower the dirty flag: the host takes it, or brings in a save file.  A write by the game
raises it, which for a serial chip is the bit that ends a write.  Every other request leaves it as it
is (`dirty_respond`), so a flag that is up after a run has been raised by a request of the run, with
none behind it that lowers it (`dirty_origin`).

Which bit ends a write is a matter of counting.  `Chip.dataSoFar` counts the data bits of a write as
they are sent; a snapshot of a chip in the middle of a write says how many it had then.  The chip keeps
the same count (`Counts`), and the bit that comes after 64 of them ends the write. -/

namespace SaveChip

/-- The host takes the flag, or brings in contents that are in the save file already. -/
def Request.clearsFlag : Request → Bool
  | takeDirty | loadFile _ => true
  | _ => false

namespace Eeprom

variable {e : Eeprom}

theorem dirty_clockIn (e : Eeprom) (now : UInt64) (bit : Bool) :
    (e.clockIn now bit).dirty =
      (decide (e.phase = .writeData ∧ e.shifted = blockBits) || e.dirty) := by
  by_cases hp : e.phase = .writeData
  · rw [clockIn_writeData hp]
    by_cases hlast : e.shifted = blockBits
    · rw [shiftIn_last hlast, decide_eq_true ⟨hp, hlast⟩, Bool.true_or]
    · rw [shiftIn_more hlast, decide_eq_false fun h => hlast h.2, Bool.false_or]
  · obtain ⟨regs, hkept, -⟩ := clockIn_registers hp now bit
    rw [hkept, decide_eq_false fun h => hp h.1, Bool.false_or]

theorem dirty_clockOut (e : Eeprom) (now : UInt64) : (e.clockOut now).dirty = e.dirty := by
  obtain ⟨regs, hkept, -⟩ := e.clockOut_registers now
  rw [hkept]

theorem shifted_clockIn (h : e.Sound) (now : UInt64) (bit : Bool)
    (hafter : (e.clockIn now bit).phase = .writeData) :
    (e.clockIn now bit).shifted = if e.phase = .writeData then e.shifted + 1 else 0 := by
  by_cases hp : e.phase = .writeData
  · rw [if_pos hp]
    rw [clockIn_writeData hp] at hafter ⊢
    by_cases hlast : e.shifted = blockBits
    · rw [shiftIn_last hlast] at hafter
      cases hafter
    · rw [shiftIn_more hlast]
  · rw [if_neg hp]
    by_cases haddress : e.phase = .writeAddress
    · have hnone : e.shifted = 0 := (h.inPhase haddress).2
      rw [clockIn, haddress]
      dsimp only [shiftAddress]
      split
      · exact hnone
      · split <;> exact hnone
    · exact absurd ((clockIn_outside haddress now bit).2 hafter).1 hp

end Eeprom

namespace Chip

variable {c : Chip} {n : Nat} {request : Request}

/-! ### One request -/

/-- The request is a write by the game: a byte of a RAM, or the bit that ends a write on the line. -/
def raisesFlag (c : Chip) (request : Request) : Bool :=
  match c, request with
  | sram _, .write .. => true
  | eeprom e, .writeBit _ => decide (e.phase = .writeData ∧ e.shifted = blockBits)
  | _, _ => false

theorem dirty_load (c : Chip) (r : Reader) : (c.load r).2.1.dirty = c.dirty := by
  obtain hsame | ⟨h, c', bs, hc, -, hload⟩ := load_cases c r
  · rw [hsame]
  · rw [hload]
    obtain rfl | ⟨e, regs, rfl, -, rfl⟩ := withHeader?_eq_ok hc
    · cases c' <;> rfl
    · rfl

theorem dirty_restore (c : Chip) (bs : List UInt8) : (c.restore bs).2.dirty = c.dirty := by
  unfold restore
  split
  · rfl
  · exact dirty_load c _

/-- **What becomes of the flag.**  It is up after a request that raises it, and after one that does not
lower it if it was up before. -/
theorem dirty_respond (c : Chip) (now : UInt64) (request : Request) :
    (c.respond now request).2.dirty =
      (c.raisesFlag request || (c.dirty && !request.clearsFlag)) := by
  cases request with
  | restore bs =>
      rw [respond, dirty_restore]
      cases c <;> simp [raisesFlag, Request.clearsFlag]
  | loadFrom buffer =>
      rw [respond, dirty_load]
      cases c <;> simp [raisesFlag, Request.clearsFlag]
  | readBit =>
      cases c with
      | absent | sram => simp [respond, clockOut, raisesFlag, Request.clearsFlag]
      | eeprom e =>
          simp [respond, clockOut, raisesFlag, Request.clearsFlag, dirty, e.dirty_clockOut]
  | writeBit value =>
      cases c with
      | absent | sram => simp [respond, clockIn, raisesFlag, Request.clearsFlag]
      | eeprom e =>
          simp [respond, clockIn, raisesFlag, Request.clearsFlag, dirty, e.dirty_clockIn]
  | write | poke | reset | loadFile | takeDirty =>
      cases c <;> simp [respond, raisesFlag, Request.clearsFlag, dirty] <;> rfl
  | _ => cases c <;> simp [respond, raisesFlag, Request.clearsFlag]

/-! ### Runs -/

theorem dirty_kept (hc : c.dirty = true) {script : List (UInt64 × Request)}
    (hkeeps : ∀ x ∈ script, x.2.clearsFlag = false) : (c.run script).2.dirty = true := by
  have havoids : c.Avoids (fun _ request => request.clearsFlag = true) script :=
    avoids_of_forall fun x hx _ => by rw [hkeeps x hx]; nofun
  refine Avoids.run (P := fun c => c.dirty = true) havoids ?_ hc
  rintro c hc x hx -
  rw [dirty_respond, hc, hkeeps x hx]
  exact Bool.or_true _

/-- A flag that is up has been up all the time, or was raised by some request, and has not been lowered
since. -/
theorem dirty_origin {script : List (UInt64 × Request)} (h : (c.run script).2.dirty = true) :
    (c.dirty = true ∧ ∀ x ∈ script, x.2.clearsFlag = false) ∨
      ∃ before now request after, script = before ++ (now, request) :: after ∧
        (∀ x ∈ after, x.2.clearsFlag = false) ∧ (c.run before).2.raisesFlag request = true := by
  induction script generalizing c with
  | nil => exact .inl ⟨h, nofun⟩
  | cons x script ih =>
      obtain ⟨now, request⟩ := x
      obtain ⟨hnext, hkeeps⟩ | ⟨before, later, request', after, rfl, hkeeps, hraises⟩ := ih h
      · rw [dirty_respond, Bool.or_eq_true, Bool.and_eq_true, Bool.not_eq_true'] at hnext
        obtain hraises | ⟨hc, hkept⟩ := hnext
        · exact .inr ⟨[], now, request, script, rfl, hkeeps, hraises⟩
        · exact .inl ⟨hc, List.forall_mem_cons.mpr ⟨hkept, hkeeps⟩⟩
      · exact .inr ⟨(now, request) :: before, later, request', after, rfl, hkeeps, hraises⟩

theorem dirty_reached_iff (k : Kind) (script : List (UInt64 × Request)) :
    (reached k script).dirty = true ↔
      ∃ before now request after, script = before ++ (now, request) :: after ∧
        (∀ x ∈ after, x.2.clearsFlag = false) ∧ (reached k before).raisesFlag request = true := by
  constructor
  · intro h
    obtain ⟨hfresh, -⟩ | hraised := dirty_origin h
    · cases k <;> cases hfresh
    · exact hraised
  · rintro ⟨before, now, request, after, rfl, hkeeps, hraises⟩
    have hup : ((reached k before).respond now request).2.dirty = true := by
      rw [dirty_respond, hraises, Bool.true_or]
    rw [reached, run_append]
    exact dirty_kept hup hkeeps

/-! ### Counting the data bits -/

/-- Data bits of a write go to the chip. -/
def Writing : Chip → Prop
  | eeprom e => e.phase = .writeData
  | absent | sram _ => False

instance : (c : Chip) → Decidable c.Writing
  | eeprom e => inferInstanceAs (Decidable (e.phase = .writeData))
  | absent | sram _ => inferInstanceAs (Decidable False)

/-- How many data bits of a write have been sent once a request is answered, given how many had been
before.  An accepted snapshot brings a count of its own. -/
def dataSoFar (c : Chip) (count : Nat) : Request → Nat
  | .writeBit _ => if c.Writing then count + 1 else 0
  | .reset => 0
  | .restore bs =>
      if (c.restore bs).1 = .loaded then (Header.ofBytes bs).shifted.toNat else count
  | .loadFrom buffer =>
      if (c.load (.ofBuffer buffer)).1 = .loaded then (Header.ofBytes buffer).shifted.toNat else count
  | _ => count

/-- How many data bits of the write under way a run has sent. -/
def dataBitsSent (c : Chip) (count : Nat) : List (UInt64 × Request) → Nat
  | [] => count
  | (now, request) :: rest => (c.respond now request).2.dataBitsSent (c.dataSoFar count request) rest

/-- The chip has as many data bits as were sent, if a write is under way. -/
def Counts (c : Chip) (count : Nat) : Prop :=
  match c with
  | eeprom e => e.phase = .writeData → e.shifted = count
  | absent | sram _ => True

theorem counts_of_kind (h : ∀ capacity, c.kind ≠ .eeprom capacity) (n : Nat) : c.Counts n := by
  cases c with
  | absent | sram => trivial
  | eeprom e => exact absurd rfl (h e.capacity)

theorem counts_load {bs : List UInt8} (h : (c.load (.ofBuffer bs)).1 = .loaded) :
    (c.load (.ofBuffer bs)).2.1.Counts (Header.ofBytes bs).shifted.toNat := by
  cases c with
  | absent | sram => exact counts_of_kind (by rw [kind_load]; nofun) _
  | eeprom e =>
      obtain ⟨r, storage, hregs, hload⟩ := load_eeprom_of_loaded h
      obtain ⟨rfl, -⟩ := Registers.eq_of_ofHeader? hregs
      rw [hload]
      exact fun _ => rfl

theorem Counts.respond (hn : c.Counts n) (h : c.Sound) (now : UInt64) (request : Request) :
    (c.respond now request).2.Counts (c.dataSoFar n request) := by
  cases request with
  | restore bs =>
      by_cases hloaded : (c.restore bs).1 = .loaded
      · have hsofar : c.dataSoFar n (.restore bs) = (Header.ofBytes bs).shifted.toNat :=
          if_pos hloaded
        obtain ⟨hload, hsame⟩ := restore_of_loaded hloaded
        rw [hsofar, Chip.respond, hsame]
        exact counts_load hload
      · have hsofar : c.dataSoFar n (.restore bs) = n := if_neg hloaded
        rw [hsofar, Chip.respond, restore_eq_self hloaded]
        exact hn
  | loadFrom buffer =>
      by_cases hloaded : (c.load (.ofBuffer buffer)).1 = .loaded
      · have hsofar : c.dataSoFar n (.loadFrom buffer) = (Header.ofBytes buffer).shifted.toNat :=
          if_pos hloaded
        rw [hsofar]
        exact counts_load hloaded
      · have hsofar : c.dataSoFar n (.loadFrom buffer) = n := if_neg hloaded
        rw [hsofar, Chip.respond, load_eq_self hloaded]
        exact hn
  | writeBit value =>
      cases c with
      | absent | sram => trivial
      | eeprom e =>
          intro hafter
          rw [Eeprom.shifted_clockIn h now _ hafter]
          by_cases hp : e.phase = .writeData
          · have hcount : (eeprom e).dataSoFar n (.writeBit value) = n + 1 := if_pos hp
            rw [if_pos hp, hcount, hn hp]
          · have hcount : (eeprom e).dataSoFar n (.writeBit value) = 0 := if_neg hp
            rw [if_neg hp, hcount]
  | readBit =>
      cases c with
      | absent | sram => trivial
      | eeprom e =>
          intro hafter
          obtain hstill | ⟨-, -, hdata⟩ := e.clockOut_outside now
          · rw [hstill] at hafter ⊢
            exact hn hafter
          · exact absurd hafter hdata
  | reset =>
      cases c with
      | absent | sram => trivial
      | eeprom e =>
          intro hafter
          cases hafter
  | write | poke | loadFile | takeDirty =>
      cases c with
      | absent | sram => trivial
      | eeprom e => exact hn
  | _ => exact hn

theorem Counts.run (hn : c.Counts n) (h : c.Sound) (script : List (UInt64 × Request)) :
    (c.run script).2.Counts (c.dataBitsSent n script) := by
  induction script generalizing c n with
  | nil => exact hn
  | cons x script ih => exact ih (hn.respond h x.1 x.2) (h.respond x.1 x.2)

theorem counts_reached (k : Kind) (script : List (UInt64 × Request)) :
    (reached k script).Counts ((fresh k).dataBitsSent 0 script) := by
  refine Counts.run ?_ (sound_fresh k) script
  cases k with
  | absent | sram => trivial
  | eeprom c => nofun

/-- After these requests to a fresh chip, the next one is a write by the game: it stores a byte, or it
sends the 65th bit of a write. -/
def Marks (k : Kind) (before : List (UInt64 × Request)) (request : Request) : Prop :=
  match k with
  | .absent => False
  | .sram => ∃ width address value, request = .write width address value
  | .eeprom _ =>
      (∃ value, request = .writeBit value) ∧ (reached k before).Writing ∧
        (fresh k).dataBitsSent 0 before = 64

theorem marks_iff (k : Kind) (before : List (UInt64 × Request)) (request : Request) :
    Marks k before request ↔ (reached k before).raisesFlag request = true := by
  have hkind := kind_reached k before
  have hcounts := counts_reached k before
  unfold Marks
  cases hchip : reached k before with
  | absent =>
      rw [hchip] at hkind
      subst hkind
      simp [raisesFlag, kind]
  | sram s =>
      rw [hchip] at hkind
      subst hkind
      cases request <;> simp [raisesFlag, kind]
  | eeprom e =>
      rw [hchip] at hkind hcounts
      subst hkind
      have hcount : e.phase = .writeData →
          (e.shifted = blockBits ↔
            (fresh (eeprom e).kind).dataBitsSent 0 before = 64) := by
        intro hp
        rw [hcounts hp, blockBits]
      cases request with
      | writeBit value =>
          simp only [raisesFlag, kind, Writing, decide_eq_true_eq]
          constructor
          · rintro ⟨-, hp, hsent⟩
            exact ⟨hp, (hcount hp).mpr hsent⟩
          · rintro ⟨hp, hlast⟩
            exact ⟨⟨value, rfl⟩, hp, (hcount hp).mp hlast⟩
      | _ => simp [raisesFlag, kind]

/-- **The dirty flag says whether the game has written.**  Whatever has happened to a chip since it was
fresh, the host is told that it is dirty exactly if some request has been a write by the game, and
since then the flag has not been taken and no save file has been brought in.  A write is an access that
stores a byte in a RAM, or the 65th bit of a write on the line, whatever its value; a snapshot of a chip
in the middle of a write brings the bits along that it had.  A chip that keeps nothing is never dirty.
A reset, a debugger and a snapshot, accepted or not, leave the flag as it is. -/
theorem dirty_reached (k : Kind) (script : List (UInt64 × Request)) (now : UInt64) :
    let chip := reached k script
    (∃ flag, (chip.respond now .takeDirty).1 = .dirty flag ∧
      (flag = true ↔
        ∃ before t request after, script = before ++ (t, request) :: after ∧
          (∀ x ∈ after, x.2 ≠ .takeDirty ∧ ∀ bs, x.2 ≠ .loadFile bs) ∧ Marks k before request)) ∧
    (∀ request,
      (request = .reset ∨ (∃ address value, request = .poke address value) ∨
        (∃ bs, request = .restore bs) ∨ ∃ buffer, request = .loadFrom buffer) →
      (chip.respond now request).2.dirty = chip.dirty) := by
  intro chip
  have hclears : ∀ request : Request,
      request.clearsFlag = false ↔ request ≠ .takeDirty ∧ ∀ bs, request ≠ .loadFile bs := by
    intro request
    cases request <;> simp [Request.clearsFlag]
  refine ⟨⟨chip.dirty, rfl, ?_⟩, ?_⟩
  · rw [dirty_reached_iff]
    simp only [hclears, marks_iff]
  · rintro request (rfl | ⟨address, value, rfl⟩ | ⟨bs, rfl⟩ | ⟨buffer, rfl⟩) <;>
      rw [dirty_respond] <;> cases chip <;> simp [raisesFlag, Request.clearsFlag]

/-- A snapshot of a chip that has all the data bits of a write: the next bit ends the write. -/
example :
    let header : Header := { Header.idle 0x1FF with shifted := 64, address := 3, phase := 2 }
    Marks (.eeprom .small) [(0, .restore (header.encode ++ List.replicate 512 0))] (.writeBit 1) :=
  ⟨⟨1, rfl⟩, by decide +kernel, by decide +kernel⟩

end Chip

end SaveChip
