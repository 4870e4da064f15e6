import SaveChip.Proofs.Chip.BusyWindow
import SaveChip.Proofs.Chip.Resume
import SaveChip.Proofs.Chip.WordArray

/-! # The cursors that occur

The cursor of a serial chip is its phase with the two bit counters.  A snapshot is refused if one of
the counters exceeds the bound of its phase, and these bounds are exact.  No use of the line takes a
counter beyond them, because the chips that occur are sound, and every cursor within them is the
cursor of some run (`lineReached_of_le`): a frame that breaks off at the right bit leaves it, or a
read that is not read to its end. -/

namespace SaveChip

namespace Phase

theorem code_inj {p q : Phase} (h : p.code = q.code) : p = q := by
  have hsome : some p = some q := by rw [← ofCode?_code p, ← ofCode?_code q, h]
  exact Option.some.inj hsome

end Phase

namespace Eeprom

variable {c : Capacity} {e : Eeprom}

/-- Some series of bits sent and polls takes a new chip here. -/
def LineReached (c : Capacity) (e : Eeprom) : Prop :=
  ∃ script : List (UInt64 × Request), (∀ x ∈ script, x.2.usesLine = true) ∧
    Chip.reached (.eeprom c) script = .eeprom e

theorem LineReached.sound (h : LineReached c e) : e.Sound := by
  obtain ⟨script, -, hreached⟩ := h
  have hsound := Chip.sound_reached (.eeprom c) script
  rwa [hreached] at hsound

theorem LineReached.capacity_eq (h : LineReached c e) : e.capacity = c := by
  obtain ⟨script, -, hreached⟩ := h
  have hkind := Chip.kind_reached (.eeprom c) script
  rw [hreached] at hkind
  exact Kind.eeprom.inj hkind

/-! ### A run for every cursor -/

/-- More use of the line leads on. -/
theorem LineReached.run (h : LineReached c e) {script : List (UInt64 × Request)}
    (hline : ∀ x ∈ script, x.2.usesLine = true) {e' : Eeprom}
    (hrun : ((Chip.eeprom e).run script).2 = .eeprom e') : LineReached c e' := by
  obtain ⟨before, hbefore, hreached⟩ := h
  refine ⟨before ++ script, ?_, ?_⟩
  · intro x hx
    obtain hx | hx := List.mem_append.mp hx
    · exact hbefore x hx
    · exact hline x hx
  · rw [Chip.reached, Chip.run_append]
    change ((Chip.reached (.eeprom c) before).run script).2 = _
    rw [hreached]
    exact hrun

theorem LineReached.send (h : LineReached c e) (sent : List (UInt64 × Bool)) :
    LineReached c (e.send sent) := by
  have hline : ∀ x ∈ sent.map (fun x => (x.1, Request.bit x.2)), x.2.usesLine = true := by
    intro x hx
    obtain ⟨y, -, rfl⟩ := List.mem_map.mp hx
    rfl
  exact h.run hline (congrArg Prod.snd (run_send e sent))

theorem LineReached.receive (h : LineReached c e) (times : List UInt64) :
    LineReached c (e.receive times).2 := by
  have hline : ∀ x ∈ times.map (·, Request.readBit), x.2.usesLine = true := by
    intro x hx
    obtain ⟨now, -, rfl⟩ := List.mem_map.mp hx
    rfl
  exact h.run hline (congrArg Prod.snd (run_receive e times))

theorem lineReached_frame {f : Frame} (hf : f.Fits c) :
    LineReached c ((fresh c).afterFrame 0 f) := by
  have hfresh : LineReached c (fresh c) := ⟨[], List.forall_mem_nil _, rfl⟩
  have hnow : (0 : UInt64) < 0xFFFFFFFFFFFFFFFF := by decide
  have hsent := send_frame (sound_fresh c) ⟨rfl, rfl⟩ rfl hnow hf
  rw [← hsent]
  exact hfresh.send _

/-- A read that is not read to its end. -/
theorem lineReached_reading {shifted : Nat} (h : shifted < leadBits + blockBits) :
    ∃ e, LineReached c e ∧ e.phase = .readData ∧ e.received = 0 ∧ e.shifted = shifted := by
  let f : Frame := .read (List.replicate c.addressBits false) false []
  let times : List UInt64 := List.replicate shifted 0
  have hfits : f.Fits c := List.length_replicate
  have htimes : times.length = shifted := List.length_replicate
  have hstart : ((fresh c).afterFrame 0 f).shifted < leadBits + blockBits := Nat.zero_lt_succ _
  have hcount : ((fresh c).afterFrame 0 f).shifted + times.length = shifted := by
    rw [htimes]
    exact Nat.zero_add shifted
  have hreceive := receive_data (e := (fresh c).afterFrame 0 f) rfl times hstart
    (by rw [hcount]; exact Nat.le_of_lt h)
  rw [hcount, if_neg (Nat.ne_of_lt h)] at hreceive
  have hread := (lineReached_frame hfits).receive times
  rw [hreceive] at hread
  exact ⟨_, hread, rfl, rfl, rfl⟩

/-- **Every cursor within the bounds of its phase occurs.** -/
theorem lineReached_of_le {p : Phase} {received shifted : Nat}
    (hreceived : received ≤ p.maxReceived c) (hshifted : shifted ≤ p.maxShifted) :
    ∃ e, LineReached c e ∧ e.phase = p ∧ e.received = received ∧ e.shifted = shifted := by
  have hlength (n : Nat) : (List.replicate n false).length = n := List.length_replicate
  cases p with
  | idle =>
      obtain rfl : shifted = 0 := Nat.le_zero.mp hshifted
      match received, hreceived with
      | 0, _ =>
          have hfits : (Frame.command []).Fits c := Nat.zero_lt_two
          exact ⟨_, lineReached_frame hfits, rfl, rfl, rfl⟩
      | 1, _ =>
          have hfits : (Frame.command [false]).Fits c := Nat.one_lt_two
          exact ⟨_, lineReached_frame hfits, rfl, rfl, rfl⟩
  | writeAddress =>
      obtain rfl : shifted = 0 := Nat.le_zero.mp hshifted
      have hwidth : 0 < c.addressBits := by cases c <;> decide
      have hfits : (Frame.writeAddress (List.replicate received false)).Fits c := by
        rw [Frame.Fits, hlength]
        exact Nat.lt_of_le_pred hwidth hreceived
      exact ⟨_, lineReached_frame hfits, rfl, hlength received, rfl⟩
  | readAddress =>
      obtain rfl : shifted = 0 := Nat.le_zero.mp hshifted
      have hfits : (Frame.readAddress (List.replicate received false)).Fits c := by
        rw [Frame.Fits, hlength]
        exact hreceived
      exact ⟨_, lineReached_frame hfits, rfl, hlength received, rfl⟩
  | writeData =>
      obtain rfl : received = 0 := Nat.le_zero.mp hreceived
      have hfits : (Frame.writeData (List.replicate c.addressBits false)
          (List.replicate shifted false)).Fits c := by
        refine ⟨hlength _, ?_⟩
        rw [hlength]
        exact hshifted
      exact ⟨_, lineReached_frame hfits, rfl, rfl, hlength shifted⟩
  | readData =>
      obtain rfl : received = 0 := Nat.le_zero.mp hreceived
      exact lineReached_reading (Nat.lt_of_le_pred (by decide) hshifted)
  | invalid =>
      obtain rfl : received = 0 := Nat.le_zero.mp hreceived
      obtain rfl : shifted = 0 := Nat.le_zero.mp hshifted
      have hfits : (Frame.undefined []).Fits c := trivial
      exact ⟨_, lineReached_frame hfits, rfl, rfl, rfl⟩

end Eeprom

/-! ### Cursors in snapshots -/

namespace Chip

variable {c : Capacity} {e e' : Eeprom}

/-- The cursor in a snapshot that is taken over is within the bounds of its phase. -/
theorem cursor_le_of_loaded {bs : List UInt8} (h : ((eeprom e).restore bs).1 = .loaded) {p : Phase}
    (hp : (Header.ofBytes bs).phase = p.code) :
    (Header.ofBytes bs).received.toNat ≤ p.maxReceived e.capacity ∧
      (Header.ofBytes bs).shifted.toNat ≤ p.maxShifted := by
  obtain ⟨r, storage, hregs, -⟩ := load_eeprom_of_loaded (restore_of_loaded h).1
  obtain ⟨hr, hcode⟩ := Registers.eq_of_ofHeader? hregs
  have hphase : r.phase = p := Phase.code_inj (hcode.trans hp)
  have hbounds := Registers.admissible_iff_bounds.mp (Registers.admissible_of_ofHeader? hregs)
  rw [hphase, hr] at hbounds
  exact ⟨hbounds.2.1, hbounds.2.2.1⟩

/-- The registers of a sound chip are accepted by every chip of its capacity, over any contents. -/
theorem restore_header (h : e.Sound) (h' : e'.Sound) (hc : e'.capacity = e.capacity)
    {contents : List UInt8} (hlength : contents.length = e.capacity.bytes) :
    (eeprom e').restore (e.header.encode ++ contents) =
      (.loaded, eeprom { e' with toRegisters := e.toRegisters, storage := .ofList contents }) := by
  obtain ⟨hfault, hregs⟩ := Eeprom.Sound.header_eq h
  have hkind : (eeprom e').kind = .eeprom e.capacity := congrArg Kind.eeprom hc
  have hsize : (eeprom e').size = (eeprom e').kind.bytes := h'.size
  rw [← hkind] at hfault
  rw [restore_encode hsize hfault (by rw [hkind]; exact hlength), withRegistersOf, hregs]
  rfl

/-- **The cursors that are accepted are those that occur.**  Whatever a serial chip has been through,
it takes over a snapshot with a given phase and given counters if and only if some use of the line
leaves a new chip of its capacity in this phase with these counters.  And it takes over the whole
registers of every such chip, over any contents of the right length. -/
theorem cursor_reached (c : Capacity) (history : List (UInt64 × Request)) :
    let chip := reached (.eeprom c) history
    (∀ (p : Phase) (received shifted : UInt32),
      (∃ bs, (Header.ofBytes bs).phase = p.code ∧ (Header.ofBytes bs).received = received ∧
          (Header.ofBytes bs).shifted = shifted ∧ (chip.restore bs).1 = .loaded) ↔
        ∃ e, Eeprom.LineReached c e ∧ e.phase = p ∧ e.received = received.toNat ∧
          e.shifted = shifted.toNat) ∧
      ∀ e, Eeprom.LineReached c e → ∀ contents : List UInt8, contents.length = c.bytes →
        (chip.restore (e.header.encode ++ contents)).1 = .loaded ∧
          (chip.restore (e.header.encode ++ contents)).2.registers? = some e.toRegisters := by
  intro chip
  obtain ⟨e', hchip, hsound, rfl⟩ :
      ∃ e', chip = eeprom e' ∧ e'.Sound ∧ e'.capacity = c :=
    exists_run_eeprom (Eeprom.sound_fresh c) history
  rw [hchip]
  constructor
  · intro p received shifted
    constructor
    · rintro ⟨bs, hphase, rfl, rfl, hloaded⟩
      obtain ⟨hreceived, hshifted⟩ := cursor_le_of_loaded hloaded hphase
      exact Eeprom.lineReached_of_le hreceived hshifted
    · rintro ⟨e, he, hphase, hreceived, hshifted⟩
      have hlength : e.storage.toList.length = e.capacity.bytes := he.sound.size
      have hrestore := restore_header he.sound hsound he.capacity_eq.symm hlength
      refine ⟨e.header.encode ++ e.storage.toList, ?_, ?_, ?_, congrArg Prod.fst hrestore⟩
      all_goals rw [Header.ofBytes_encode]
      · exact congrArg Phase.code hphase
      · exact (congrArg UInt32.ofNat hreceived).trans UInt32.ofNat_toNat
      · exact (congrArg UInt32.ofNat hshifted).trans UInt32.ofNat_toNat
  · intro e he contents hlength
    rw [← he.capacity_eq] at hlength
    rw [restore_header he.sound hsound he.capacity_eq.symm hlength]
    exact ⟨rfl, rfl⟩

end Chip

end SaveChip
