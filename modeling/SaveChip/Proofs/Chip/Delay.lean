import SaveChip.Proofs.Chip.Settling

/-! # Only elapsed cycles matter

A chip compares its clock with a deadline and does nothing else with either of them.  Let two new
serial chips get the same requests, the second one always `d` cycles later.  The second one is then
the first one but for the deadline, and the deadlines lie `d` cycles apart as long as they matter
(`Eeprom.Later`).  They do not matter to a chip that is ready: a new chip and a chip after a reset
have the deadline zero whatever their clocks show, and a comparison with it finds nothing new.

The clock has to have room for the delay and a busy period behind it, because a deadline stays at the
last cycle that the clock can show. -/

namespace SaveChip

/-- Brings in a snapshot, and a deadline with it. -/
def Request.loadsSnapshot : Request → Bool
  | restore _ | loadFrom _ => true
  | _ => false

/-- The same requests, each one `d` cycles later. -/
def delayed (d : UInt64) (script : List (UInt64 × Request)) : List (UInt64 × Request) :=
  script.map fun x => (x.1 + d, x.2)

theorem toNat_delayed {now d : UInt64} (h : now.toNat + d.toNat < UInt64.size) :
    (now + d).toNat = now.toNat + d.toNat := by
  rw [UInt64.toNat_add, Nat.mod_eq_of_lt h]

/-- A busy period that starts later ends later. -/
theorem toNat_busyUntil_delayed {now d : UInt64}
    (h : now.toNat + d.toNat + busyCycles.toNat < UInt64.size) :
    (busyUntil (now + d)).toNat = (busyUntil now).toNat + d.toNat := by
  have hsum : now.toNat + d.toNat < UInt64.size := by omega
  rw [toNat_busyUntil, toNat_busyUntil, toNat_delayed hsum]
  omega

/-! ### One chip later than another -/

namespace Eeprom

variable {a b : Eeprom} {d now : UInt64}

/-- The same chip but for the deadline, which lies `d` cycles later while the chip is busy. -/
def Later (d : UInt64) (a b : Eeprom) : Prop :=
  ∃ deadline, b = { a with deadline := deadline } ∧
    (a.ready = false → deadline.toNat = a.deadline.toNat + d.toNat)

theorem later_of_ready (hready : a.ready = true) : Later d a a :=
  ⟨a.deadline, rfl, fun hbusy => absurd hbusy (by rw [hready]; nofun)⟩

namespace Later

/-- The two chips find their busy periods over at the same request. -/
theorem settle (h : Later d a b) (hroom : now.toNat + d.toNat < UInt64.size) :
    Later d (a.settle now) (b.settle (now + d)) := by
  obtain ⟨deadline, rfl, hdeadline⟩ := h
  have hready : (a.ready || decide (deadline ≤ now + d)) =
      (a.ready || decide (a.deadline ≤ now)) := by
    cases hbusy : a.ready with
    | true => rw [Bool.true_or, Bool.true_or]
    | false =>
        have hlater := hdeadline hbusy
        rw [Bool.false_or, Bool.false_or, decide_eq_decide, UInt64.le_iff_toNat_le,
          UInt64.le_iff_toNat_le, toNat_delayed hroom, hlater]
        omega
  rw [settle_eq, settle_eq]
  dsimp only
  rw [hready]
  refine ⟨deadline, rfl, ?_⟩
  intro hbusy
  exact hdeadline (Bool.or_eq_false_iff.mp hbusy).1

theorem decode (h : Later d a b) (hroom : now.toNat + d.toNat < UInt64.size) (bit : Bool) :
    Later d (a.decode now bit) (b.decode (now + d) bit) := by
  obtain ⟨deadline, hsettled, hdeadline⟩ := h.settle hroom
  unfold Eeprom.decode
  rw [hsettled]
  dsimp only
  split
  · exact ⟨deadline, rfl, hdeadline⟩
  · split <;> exact ⟨deadline, rfl, hdeadline⟩

theorem shiftAddress (h : Later d a b) (reading bit : Bool) :
    Later d (a.shiftAddress reading bit) (b.shiftAddress reading bit) := by
  obtain ⟨deadline, rfl, hdeadline⟩ := h
  obtain hfull | hlast | hmore : a.addressPhaseBits reading ≤ a.received ∨
      a.received + 1 = a.addressPhaseBits reading ∨
      a.received + 1 < a.addressPhaseBits reading := by omega
  · rw [shiftAddress_full hfull, shiftAddress_full (e := { a with deadline := deadline }) hfull]
    exact ⟨deadline, rfl, hdeadline⟩
  · rw [shiftAddress_last hlast, shiftAddress_last (e := { a with deadline := deadline }) hlast]
    exact ⟨deadline, rfl, hdeadline⟩
  · rw [shiftAddress_more hmore, shiftAddress_more (e := { a with deadline := deadline }) hmore]
    exact ⟨deadline, rfl, hdeadline⟩

theorem shiftIn (h : Later d a b)
    (hroom : now.toNat + d.toNat + busyCycles.toNat < UInt64.size) (bit : Bool) :
    Later d (a.shiftIn now bit) (b.shiftIn (now + d) bit) := by
  obtain ⟨deadline, rfl, hdeadline⟩ := h
  by_cases hlast : a.shifted = blockBits
  · rw [shiftIn_last hlast, shiftIn_last (e := { a with deadline := deadline }) hlast]
    exact ⟨busyUntil (now + d), rfl, fun _ => toNat_busyUntil_delayed hroom⟩
  · rw [shiftIn_more hlast, shiftIn_more (e := { a with deadline := deadline }) hlast]
    exact ⟨deadline, rfl, hdeadline⟩

theorem shiftOut (h : Later d a b) : Later d a.shiftOut b.shiftOut := by
  obtain ⟨deadline, rfl, hdeadline⟩ := h
  by_cases hlast : a.shifted + 1 = leadBits + blockBits
  · rw [shiftOut_last hlast, shiftOut_last (e := { a with deadline := deadline }) hlast]
    exact ⟨deadline, rfl, nofun⟩
  · rw [shiftOut_more hlast, shiftOut_more (e := { a with deadline := deadline }) hlast]
    exact ⟨deadline, rfl, hdeadline⟩

theorem phase_eq (h : Later d a b) : b.phase = a.phase := by
  obtain ⟨deadline, rfl, -⟩ := h
  rfl

theorem clockIn (h : Later d a b)
    (hroom : now.toNat + d.toNat + busyCycles.toNat < UInt64.size) (bit : Bool) :
    Later d (a.clockIn now bit) (b.clockIn (now + d) bit) := by
  unfold Eeprom.clockIn
  rw [h.phase_eq]
  cases a.phase with
  | idle => exact h.decode (by omega) bit
  | writeAddress => exact h.shiftAddress false bit
  | readAddress => exact h.shiftAddress true bit
  | writeData => exact h.shiftIn hroom bit
  | readData | invalid => exact h

theorem clockOut (h : Later d a b) (hroom : now.toNat + d.toNat < UInt64.size) :
    Later d (a.clockOut now) (b.clockOut (now + d)) := by
  unfold Eeprom.clockOut
  rw [h.phase_eq]
  cases a.phase with
  | idle => exact h.settle hroom
  | readData => exact h.shiftOut
  | writeData | invalid | writeAddress | readAddress => exact h

theorem output_eq (h : Later d a b) (hroom : now.toNat + d.toNat < UInt64.size) :
    b.output (now + d) = a.output now := by
  unfold Eeprom.output
  rw [h.phase_eq]
  cases a.phase with
  | idle =>
      obtain ⟨deadline, hsettled, -⟩ := h.settle hroom
      dsimp only
      rw [hsettled]
  | readData =>
      obtain ⟨deadline, rfl, -⟩ := h
      rfl
  | writeData | invalid | writeAddress | readAddress => rfl

/-! ### Requests and runs -/

/-- The later chip answers as the other one does, and stays that much later. -/
theorem respond (h : Later d a b)
    (hroom : now.toNat + d.toNat + busyCycles.toNat < UInt64.size) {request : Request}
    (hloads : request.loadsSnapshot = false) :
    ((Chip.eeprom b).respond (now + d) request).1.withoutSnapshot =
        ((Chip.eeprom a).respond now request).1.withoutSnapshot ∧
      ∃ a' b', ((Chip.eeprom a).respond now request).2 = .eeprom a' ∧
        ((Chip.eeprom b).respond (now + d) request).2 = .eeprom b' ∧ Later d a' b' := by
  have hshort : now.toNat + d.toNat < UInt64.size := by omega
  cases request with
  | readBit =>
      refine ⟨?_, _, _, rfl, rfl, h.clockOut hshort⟩
      simp only [Chip.respond, Chip.output, h.output_eq hshort]
  | writeBit value => exact ⟨rfl, _, _, rfl, rfl, h.clockIn hroom _⟩
  | reset =>
      obtain ⟨deadline, rfl, -⟩ := h
      exact ⟨rfl, _, _, rfl, rfl, later_of_ready rfl⟩
  | restore | loadFrom => cases hloads
  | snapshot | saveInto =>
      -- Both of them show the deadline.
      obtain ⟨deadline, rfl, hdeadline⟩ := h
      exact ⟨Eq.refl Reply.done, _, _, rfl, rfl, deadline, rfl, hdeadline⟩
  | _ =>
      obtain ⟨deadline, rfl, hdeadline⟩ := h
      exact ⟨rfl, _, _, rfl, rfl, deadline, rfl, hdeadline⟩

theorem run (h : Later d a b) {script : List (UInt64 × Request)}
    (hroom : ∀ x ∈ script, x.1.toNat + d.toNat + busyCycles.toNat < UInt64.size)
    (hloads : ∀ x ∈ script, x.2.loadsSnapshot = false) :
    ((Chip.eeprom b).run (delayed d script)).1.map Reply.withoutSnapshot =
        ((Chip.eeprom a).run script).1.map Reply.withoutSnapshot ∧
      ∃ a' b', ((Chip.eeprom a).run script).2 = .eeprom a' ∧
        ((Chip.eeprom b).run (delayed d script)).2 = .eeprom b' ∧ Later d a' b' := by
  induction script generalizing a b with
  | nil => exact ⟨rfl, a, b, rfl, rfl, h⟩
  | cons x script ih =>
      obtain ⟨hroom₀, hroom⟩ := List.forall_mem_cons.mp hroom
      obtain ⟨hloads₀, hloads⟩ := List.forall_mem_cons.mp hloads
      obtain ⟨hreply, a₁, b₁, ha, hb, hnext⟩ := h.respond hroom₀ hloads₀
      obtain ⟨hreplies, hlast⟩ := ih hnext hroom hloads
      rw [← ha, ← hb] at hreplies hlast
      have hall := congr (congrArg List.cons hreply) hreplies
      exact ⟨hall, hlast⟩

end Later

end Eeprom

namespace Chip

/-- **Only elapsed cycles matter.**  Two new serial chips of one size get the same requests, no
snapshots to load among them, on clocks that may jump as they like, and the second chip gets each of
them `d` cycles later.  They answer alike, and after each request they are alike in all but the
deadline; while they are not ready, the second one has its deadline `d` cycles later. -/
theorem delayed_run (c : Capacity) (d : UInt64) {script : List (UInt64 × Request)}
    (hroom : ∀ x ∈ script, x.1.toNat + d.toNat + 0x1A750 ≤ 0xFFFFFFFFFFFFFFFF)
    (hloads : ∀ x ∈ script, x.2.loadsSnapshot = false) :
    let chip := fresh (.eeprom c)
    (chip.run (delayed d script)).1.map Reply.withoutSnapshot =
        (chip.run script).1.map Reply.withoutSnapshot ∧
      ∀ before after, script = before ++ after →
        ∃ e later : Eeprom, (chip.run before).2 = eeprom e ∧
          (chip.run (delayed d before)).2 = eeprom later ∧
          later = { e with deadline := later.deadline } ∧
          (e.ready = false → later.deadline.toNat = e.deadline.toNat + d.toNat) := by
  intro chip
  have hstart : Eeprom.Later d (.fresh c) (.fresh c) := Eeprom.later_of_ready rfl
  have hbusy : busyCycles.toNat = 0x1A750 := rfl
  have hlimit : UInt64.size = 0xFFFFFFFFFFFFFFFF + 1 := rfl
  have hfits : ∀ x ∈ script, x.1.toNat + d.toNat + busyCycles.toNat < UInt64.size := by
    intro x hx
    have hx := hroom x hx
    omega
  refine ⟨(hstart.run hfits hloads).1, ?_⟩
  rintro before after rfl
  obtain ⟨hbeforeFits, -⟩ := List.forall_mem_append.mp hfits
  obtain ⟨hbeforeLoads, -⟩ := List.forall_mem_append.mp hloads
  obtain ⟨-, e, later, he, hlater, deadline, rfl, hdeadline⟩ :=
    hstart.run hbeforeFits hbeforeLoads
  exact ⟨e, _, he, hlater, rfl, hdeadline⟩

/-- A write that ends in cycle 5, a thousand cycles later on the second chip, and a poll one cycle
before the busy period is over. -/
theorem delayed_run_busy :
    let values : List UInt8 := [1, 0] ++ List.replicate 6 0 ++ List.replicate 65 0
    let script : List (UInt64 × Request) :=
      values.map (fun value => (5, Request.writeBit value)) ++ [(108372, .readBit)]
    let chip := fresh (.eeprom .small)
    (∀ x ∈ script, x.1.toNat + (1000 : UInt64).toNat + 0x1A750 ≤ 0xFFFFFFFFFFFFFFFF) ∧
      (∀ x ∈ script, x.2.loadsSnapshot = false) ∧
      ∃ e later : Eeprom, (chip.run script).2 = eeprom e ∧
        (chip.run (delayed 1000 script)).2 = eeprom later ∧ e.ready = false ∧
        e.deadline = 108373 ∧ later = { e with deadline := 109373 } := by
  intro values script chip
  have hroom : ∀ x ∈ script, x.1.toNat + (1000 : UInt64).toNat + 0x1A750 ≤ 0xFFFFFFFFFFFFFFFF := by
    decide
  have hloads : ∀ x ∈ script, x.2.loadsSnapshot = false := by decide
  obtain ⟨-, hsteps⟩ := delayed_run .small 1000 hroom hloads
  obtain ⟨e, later, he, hlater, hsame, hdeadline⟩ := hsteps script [] (List.append_nil _).symm
  have hbusy : (chip.run script).2.header.ready = false ∧
      (chip.run script).2.header.deadline = 108373 := by decide +kernel
  rw [he] at hbusy
  obtain ⟨hready, hdue⟩ : e.ready = false ∧ e.deadline = 108373 := hbusy
  have hthen : later.deadline = 109373 := by
    apply UInt64.toNat_inj.mp
    rw [hdeadline hready, hdue]
    rfl
  rw [hthen] at hsame
  exact ⟨hroom, hloads, e, later, he, hlater, hready, hdue, hsame⟩

end Chip

end SaveChip
