import SaveChip.Proofs.Chip.Parsing

/-! # The busy window

The bit that ends a write turns the chip busy, and until its deadline the chip cannot be moved: it
answers zero on the line, drops what it is sent, and stays bit for bit what it was, whatever else
happens on the bus and however the clock jumps (`run_busy`).  The first use of the line at or after
the deadline finds it ready and has its full effect (`clockIn_due`, `clockOut_due`).  After that the
deadline is without meaning: only another write or a snapshot makes the chip busy again
(`ready_run`). -/

namespace SaveChip

namespace Request

/-- What a running game does to a chip; a debugger may look on and meddle. -/
def isTraffic : Request → Bool
  | readBit | writeBit _ | read .. | write .. | peek _ | poke .. | tick => true
  | _ => false

def usesLine : Request → Bool
  | readBit | writeBit _ => true
  | _ => false

/-- What a busy serial chip answers. -/
def busyReply : Request → Reply
  | readBit => .value 0
  | read width _ => .value width.openBus
  | peek _ => .value 0xFF
  | _ => .done

end Request

/-! ### Before the deadline -/

namespace Eeprom

variable {e : Eeprom} {now : UInt64}

/-- At rest, while a block is being programmed. -/
structure Busy (e : Eeprom) : Prop extends e.Resting where
  unready : e.ready = false

theorem settle_early (hlt : now < e.deadline) : e.settle now = e :=
  if_neg (UInt64.not_le.mpr hlt)

theorem settle_due (hle : e.deadline ≤ now) : e.settle now = { e with ready := true } :=
  if_pos hle

/-- The bit after the last data bit turns the chip busy. -/
theorem busy_clockIn (h : e.Sound) (hp : e.phase = .writeData) (hs : e.shifted = blockBits)
    (now : UInt64) (bit : Bool) : (e.clockIn now bit).Busy := by
  rw [clockIn_terminator hp hs]
  exact { phase := rfl, received := (h.inPhase hp).1, unready := rfl }

theorem Busy.output (h : e.Busy) (hlt : now < e.deadline) : e.output now = false := by
  rw [Eeprom.output, h.phase]
  dsimp only
  rw [settle_early hlt, h.unready]

theorem Busy.clockOut (h : e.Busy) (hlt : now < e.deadline) : e.clockOut now = e := by
  rw [Eeprom.clockOut, h.phase]
  exact settle_early hlt

/-! ### At the deadline -/

theorem Busy.output_due (h : e.Busy) (hle : e.deadline ≤ now) : e.output now = true := by
  rw [Eeprom.output, h.phase]
  dsimp only
  rw [settle_due hle]

theorem Busy.clockOut_due (h : e.Busy) (hle : e.deadline ≤ now) :
    e.clockOut now = { e with ready := true } := by
  simp only [Eeprom.clockOut, h.phase, settle_due hle]

/-- The bit that finds the chip ready is the first one of a command. -/
theorem Busy.clockIn_due (h : e.Busy) (hle : e.deadline ≤ now) (bit : Bool) :
    e.clockIn now bit =
      { e with ready := true, address := 0, received := 1, command := bit.toNat } :=
  clockIn_first h.toResting (.inr hle) bit

/-! ### After the deadline -/

theorem ready_clockOut (hready : e.ready = true) (now : UInt64) : (e.clockOut now).ready = true := by
  obtain ⟨regs, hsame, hkeeps⟩ := e.clockOut_registers now
  rw [hsame]
  exact hkeeps hready

/-- A bit leaves a ready chip ready, unless it ends a write. -/
theorem ready_clockIn (hready : e.ready = true)
    (hends : ¬(e.phase = .writeData ∧ e.shifted = blockBits)) (now : UInt64) (bit : Bool) :
    (e.clockIn now bit).ready = true := by
  by_cases hp : e.phase = .writeData
  · have hmore : e.shifted ≠ blockBits := fun hs => hends ⟨hp, hs⟩
    rw [clockIn_writeData hp, shiftIn_more hmore]
    exact hready
  · obtain ⟨regs, hsame, hkeeps⟩ := clockIn_registers hp now bit
    rw [hsame]
    exact hkeeps hready

end Eeprom

/-! ### Requests and runs -/

namespace Chip

variable {e : Eeprom} {now : UInt64} {request : Request}

theorem respond_busy (h : e.Busy) (htraffic : request.isTraffic = true)
    (hlt : request.usesLine = true → now < e.deadline) :
    (eeprom e).respond now request = (request.busyReply, eeprom e) := by
  cases request with
  | readBit =>
      have hearly := hlt rfl
      simp only [respond, output, clockOut, h.output hearly, h.clockOut hearly, Request.busyReply]
      rfl
  | writeBit value =>
      simp only [respond, clockIn, Eeprom.clockIn_busy h.phase h.unready (hlt rfl),
        Request.busyReply]
  | read | write | peek | poke | tick => rfl
  | _ => cases htraffic

theorem run_busy (h : e.Busy) {traffic : List (UInt64 × Request)}
    (htraffic : ∀ x ∈ traffic, x.2.isTraffic = true)
    (hlt : ∀ x ∈ traffic, x.2.usesLine = true → x.1 < e.deadline) :
    (eeprom e).run traffic = (traffic.map fun x => x.2.busyReply, eeprom e) := by
  induction traffic with
  | nil => rfl
  | cons x traffic ih =>
      obtain ⟨htraffic₀, htraffic⟩ := List.forall_mem_cons.mp htraffic
      obtain ⟨hlt₀, hlt⟩ := List.forall_mem_cons.mp hlt
      rw [run, respond_busy h htraffic₀ hlt₀, ih htraffic hlt, List.map_cons]

theorem respond_readBit_due (h : e.Busy) (hle : e.deadline ≤ now) :
    (eeprom e).respond now .readBit = (.value 1, eeprom { e with ready := true }) := by
  rw [respond, output, clockOut, h.output_due hle, h.clockOut_due hle]
  rfl

theorem respond_writeBit_due (h : e.Busy) (hle : e.deadline ≤ now) (value : UInt8) :
    (eeprom e).respond now (.writeBit value) =
      (.done, eeprom { e with
        ready := true
        address := 0
        received := 1
        command := (bitAt value 0).toNat }) := by
  rw [respond, clockIn, h.clockIn_due hle]

/-- The request ends a write, or it brings in a snapshot. -/
def Rearms (c : Chip) : Request → Prop
  | .writeBit _ => ∃ e, c = eeprom e ∧ e.phase = .writeData ∧ e.shifted = blockBits
  | .restore bs => (c.restore bs).1 = .loaded
  | .loadFrom buffer => (c.load (.ofBuffer buffer)).1 = .loaded
  | _ => False

theorem ready_respond (hready : e.ready = true) (hquiet : ¬(eeprom e).Rearms request)
    (now : UInt64) :
    ∃ e', ((eeprom e).respond now request).2 = eeprom e' ∧ e'.ready = true := by
  cases request with
  | readBit => exact ⟨_, rfl, Eeprom.ready_clockOut hready now⟩
  | writeBit value =>
      have hends : ¬(e.phase = .writeData ∧ e.shifted = blockBits) :=
        fun hends => hquiet ⟨e, rfl, hends⟩
      exact ⟨_, rfl, Eeprom.ready_clockIn hready hends now _⟩
  | restore bs => exact ⟨e, restore_eq_self hquiet, hready⟩
  | loadFrom buffer => exact ⟨e, load_eq_self hquiet, hready⟩
  | reset => exact ⟨_, rfl, rfl⟩
  | _ => exact ⟨_, rfl, hready⟩

theorem ready_run (hready : e.ready = true) {script : List (UInt64 × Request)}
    (hquiet : (eeprom e).Avoids Rearms script) :
    ∃ e', ((eeprom e).run script).2 = eeprom e' ∧ e'.ready = true := by
  refine Avoids.run (P := fun c => ∃ e', c = eeprom e' ∧ e'.ready = true) hquiet ?_ ⟨e, rfl, hready⟩
  rintro _ ⟨e', rfl, hready'⟩ x - hkeeps
  exact ready_respond hready' hkeeps x.1

/-- **The busy window.**  The bit that ends a write leaves the chip idle and busy until a deadline.
Traffic that does not use the line at or after the deadline reads zeros from it and leaves the very
same chip.  The first use of the line at or after the deadline is served: a read finds the line high,
and a bit is the first one of a command.  From then on the chip is ready whatever the clock shows,
until another write ends or a snapshot is brought in. -/
theorem busy_reached {c : Capacity} {history : List (UInt64 × Request)} {e : Eeprom}
    (he : reached (.eeprom c) history = eeprom e) (hphase : e.phase = .writeData)
    (hshifted : e.shifted = 64) (start : UInt64) (last : UInt8) :
    ∃ busy : Eeprom,
      ((eeprom e).respond start (.writeBit last)).2 = eeprom busy ∧
      busy.phase = .idle ∧ busy.ready = false ∧
      busy.deadline.toNat = min (start.toNat + 0x1A750) 0xFFFFFFFFFFFFFFFF ∧
      (∀ traffic : List (UInt64 × Request), (∀ x ∈ traffic, x.2.isTraffic = true) →
        (∀ x ∈ traffic, x.2.usesLine = true → x.1 < busy.deadline) →
        (eeprom busy).run traffic = (traffic.map fun x => x.2.busyReply, eeprom busy)) ∧
      ∀ now, busy.deadline ≤ now →
        (eeprom busy).respond now .readBit = (.value 1, eeprom { busy with ready := true }) ∧
        (∀ value, (eeprom busy).respond now (.writeBit value) =
          (.done, eeprom { busy with
            ready := true
            address := 0
            received := 1
            command := (bitAt value 0).toNat })) ∧
        ∀ request, request.usesLine = true → ∀ later,
          ((eeprom busy).respond now request).2.Avoids Rearms later →
          ∃ e', (((eeprom busy).respond now request).2.run later).2 = eeprom e' ∧
            e'.ready = true := by
  have hsound := sound_reached (.eeprom c) history
  rw [he] at hsound
  have hbusy := Eeprom.busy_clockIn hsound hphase hshifted start (bitAt last 0)
  have hdeadline : (e.clockIn start (bitAt last 0)).deadline = busyUntil start := by
    rw [Eeprom.clockIn_terminator hphase hshifted]
  refine ⟨e.clockIn start (bitAt last 0), rfl, hbusy.phase, hbusy.unready, ?_, ?_, ?_⟩
  · rw [hdeadline]
    exact toNat_busyUntil start
  · intro traffic htraffic hlt
    exact run_busy hbusy htraffic hlt
  · intro now hle
    have hread := respond_readBit_due hbusy hle
    have hwrite := respond_writeBit_due hbusy hle
    refine ⟨hread, hwrite, ?_⟩
    intro request huses later hquiet
    cases request with
    | readBit =>
        rw [hread] at hquiet ⊢
        exact ready_run rfl hquiet
    | writeBit value =>
        rw [hwrite] at hquiet ⊢
        exact ready_run rfl hquiet
    | _ => cases huses

/-- A write that ends in cycle 7: a bit and a poll come one cycle too early, the next poll finds the
chip ready, and it stays so when the clock is put back. -/
theorem busy_reached_polled :
    let values : List UInt8 := [1, 0] ++ List.replicate 6 0 ++ List.replicate 64 1
    let history : List (UInt64 × Request) := values.map fun value => (0, .writeBit value)
    let used := (reached (.eeprom .small) history).run
      [(7, .writeBit 0), (108374, .writeBit 1), (108374, .readBit), (108375, .readBit)]
    used.1 = [.done, .done, .value 0, .value 1] ∧
      ∃ e, (used.2.run [(0, .readBit)]).2 = eeprom e ∧ e.ready = true := by
  intro values history used
  let written : Frame := .writeData (List.replicate 6 false) (List.replicate 64 true)
  have hfits : written.Fits .small := ⟨rfl, Nat.le_refl 64⟩
  have hnow : (0 : UInt64) < 0xFFFFFFFFFFFFFFFF := by decide
  have hsent := Eeprom.send_frame (Eeprom.sound_fresh .small) ⟨rfl, rfl⟩ rfl hnow hfits
  have hwritten : reached (.eeprom .small) history =
      eeprom ((Eeprom.fresh .small).afterFrame 0 written) :=
    (run_values (.fresh .small) 0 values).trans (congrArg eeprom hsent)
  obtain ⟨busy, hended, -, -, hdeadline, hwindow, hdue⟩ := busy_reached hwritten rfl rfl 7 0
  have hend : busy.deadline = 108375 := by
    apply UInt64.toNat_inj.mp
    rw [hdeadline]
    decide
  have htraffic := hwindow [(108374, .writeBit 1), (108374, .readBit)] (by decide)
    (by rw [hend]; decide)
  obtain ⟨hread, -, hlater⟩ := hdue 108375 (by rw [hend]; exact UInt64.le_refl _)
  obtain ⟨e, hrun, hready⟩ := hlater .readBit rfl [(0, .readBit)] ⟨id, trivial⟩
  have hused : used =
      ([.done, .done, .value 0, .value 1], eeprom { busy with ready := true }) := by
    change (reached (.eeprom .small) history).run
      ((7, .writeBit 0) :: ([(108374, .writeBit 1), (108374, .readBit)] ++ [(108375, .readBit)])) = _
    rw [hwritten, run, hended, run_append, htraffic, run, hread]
    rfl
  rw [hread] at hrun
  rw [hused]
  exact ⟨rfl, e, hrun, hready⟩

end Chip

end SaveChip
