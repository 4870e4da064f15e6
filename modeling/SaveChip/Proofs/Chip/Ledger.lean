import SaveChip.Proofs.Chip.Confinement
import SaveChip.Proofs.Log.Line

/-! # The log is a ledger of the transfers

A request of the game makes one entry in the log of a serial chip (`Eeprom.Entry`): nothing, or the
report of the phase that it ends, after a warning where the last bit asks for one.  A chip that was
reset or loaded would leave a phase without a report, so these requests are left out.

Each phase that is opened is therefore closed later or is the one that the chip is in
(`Ledger.balance`), and the block in the address register is the one in the log that was named last
(`Ledger.latest`).  A run keeps both (`Ledger.run`), so the lines of the log can be counted against
the phase of the chip (`Chip.ledger_reached`). -/

namespace SaveChip

namespace Event

/-- A whole block address arrived. -/
def isAddressed : Event → Bool
  | addressed .. => true
  | _ => false

/-- The block address that arrived last. -/
def latestAddressed (log : List Event) : Option Event := (log.filter isAddressed).getLast?

section Warned

variable {c : Prop} [Decidable c] {warning report x : Event} {p : Event → Bool}

theorem mem_warned :
    x ∈ (if c then [warning] else []) ++ [report] ↔ (c ∧ x = warning) ∨ x = report := by
  rw [List.mem_append, List.mem_singleton]
  by_cases hc : c
  · rw [if_pos hc, List.mem_singleton, and_iff_right hc]
  · simp [hc]

theorem countP_warned (hp : p warning = false) :
    ((if c then [warning] else []) ++ [report]).countP p = if p report then 1 else 0 := by
  have hnone : (if c then [warning] else []).countP p = 0 := by
    split <;> simp [hp]
  rw [List.countP_append, hnone, Nat.zero_add, List.countP_singleton]

theorem head?_of_pair {front back : List Event} (h : [warning, report] = front ++ warning :: back)
    (hne : warning ≠ report) : back.head? = some report := by
  cases front with
  | nil =>
      cases h
      rfl
  | cons y front =>
      obtain ⟨-, h⟩ := List.cons.inj h
      cases front with
      | nil => exact absurd (List.cons.inj h).1.symm hne
      | cons z front =>
          obtain ⟨-, h⟩ := List.cons.inj h
          cases front <;> cases h

end Warned

theorem latestAddressed_append_of_forall {log events : List Event}
    (h : ∀ x ∈ events, x.isAddressed = false) :
    latestAddressed (log ++ events) = latestAddressed log := by
  have hnone : events.filter isAddressed = [] :=
    List.filter_eq_nil_iff.mpr fun x hx => Bool.eq_false_iff.mp (h x hx)
  rw [latestAddressed, latestAddressed, List.filter_append, hnone, List.append_nil]

theorem latestAddressed_concat (log : List Event) (block : UInt32) (phase : Phase) :
    latestAddressed (log ++ [addressed block phase]) = some (addressed block phase) := by
  rw [latestAddressed, List.filter_append]
  exact List.getLast?_concat

end Event

namespace Eeprom

open Event

/-! ### Entries -/

/-- What a request that leads from a chip to another one reports. -/
inductive Entry (a : Eeprom) : Request → List Event → Eeprom → Prop
  | quiet {request : Request} {b : Eeprom} (hphase : b.phase = a.phase)
      (haddress : a.phase.transfersData = true → b.address = a.address) : Entry a request [] b
  | command {request : Request} {b : Eeprom} {n : Nat} (hn : n ≤ 3) (hidle : a.phase = .idle)
      (hphase : b.phase = .ofCommand n) :
      Entry a request ((if n = 1 then [.undefinedCommand] else []) ++ [.command n (.ofCommand n)]) b
  | addressed {value : UInt8} {b : Eeprom} {block : UInt32} (reading : Bool)
      (hphase : a.phase = addressPhase reading) (hopened : b.phase = dataPhase reading)
      (hblock : b.address = block) :
      Entry a (.writeBit value)
        ((if reading && bitAt value 0 then [.readUnterminated] else []) ++
          [.addressed block (dataPhase reading)]) b
  | written {value : UInt8} {b : Eeprom} {deadline : UInt64} (hphase : a.phase = .writeData)
      (hidle : b.phase = .idle) (hdeadline : b.deadline = deadline) :
      Entry a (.writeBit value)
        ((if bitAt value 0 then [.writeUnterminated] else []) ++ [.written a.address deadline]) b
  | blockRead {request : Request} {b : Eeprom} (hphase : a.phase = .readData)
      (hidle : b.phase = .idle) : Entry a request [.blockRead a.address] b

variable {a b e : Eeprom} {request : Request} {events : List Event}

theorem entry_decode (h : e.Sound) (hp : e.phase = .idle) (now : UInt64) (value : UInt8) :
    e.Entry (.writeBit value) (e.decodeEvents now (bitAt value 0)) (e.decode now (bitAt value 0)) := by
  obtain ⟨hcount, -, hcommand⟩ := h.inPhase hp
  have hbit := Bool.toNat_le (bitAt value 0)
  have hdata : ¬e.phase.transfersData = true := by
    rw [hp]
    nofun
  have hphase : (e.settle now).phase = .idle := by
    rw [settle_eq]
    exact hp
  have hreceived : (e.settle now).received = e.received := by rw [settle_eq]
  by_cases hwaits : (!(e.settle now).ready) = true ∨ e.received = 0
  · rw [decodeEvents, if_pos hwaits]
    refine .quiet ?_ fun hc => absurd hc hdata
    unfold decode
    dsimp only
    split
    · rw [hphase, hp]
    · split
      · rw [hphase, hp]
      · rename_i hready hsecond
        exact absurd hwaits (not_or.mpr ⟨hready, hreceived ▸ hsecond⟩)
  · obtain ⟨hready, hsecond⟩ := not_or.mp hwaits
    have hlast := hcommand (by omega)
    rw [decodeEvents, if_neg hwaits]
    refine .command (by omega) hp ?_
    unfold decode
    dsimp only
    rw [if_neg hready, if_neg (hreceived ▸ hsecond), settle_eq]

theorem entry_shiftAddress (h : e.Sound) {reading : Bool} (hp : e.phase = addressPhase reading)
    (value : UInt8) :
    e.Entry (.writeBit value) (e.shiftAddressEvents reading (bitAt value 0))
      (e.shiftAddress reading (bitAt value 0)) := by
  have hroom := received_lt_addressPhaseBits h hp
  have hdata : ¬e.phase.transfersData = true := by
    rw [hp]
    cases reading <;> nofun
  unfold shiftAddressEvents
  by_cases hlast : e.received + 1 = e.addressPhaseBits reading
  · rw [if_pos hlast, shiftAddress_last hlast]
    exact .addressed reading hp rfl rfl
  · have hmore : e.received + 1 < e.addressPhaseBits reading := by omega
    rw [if_neg hlast, shiftAddress_more hmore]
    exact .quiet rfl fun hc => absurd hc hdata

theorem entry_shiftIn (hp : e.phase = .writeData) (now : UInt64) (value : UInt8) :
    e.Entry (.writeBit value) (e.shiftInEvents now (bitAt value 0))
      (e.shiftIn now (bitAt value 0)) := by
  unfold shiftInEvents
  by_cases hlast : e.shifted = blockBits
  · rw [if_pos hlast, shiftIn_last hlast]
    exact .written hp rfl rfl
  · rw [if_neg hlast, shiftIn_more hlast]
    exact .quiet rfl fun _ => rfl

theorem entry_shiftOut (hp : e.phase = .readData) (request : Request) :
    e.Entry request e.shiftOutEvents e.shiftOut := by
  unfold shiftOutEvents
  by_cases hlast : e.shifted + 1 = leadBits + blockBits
  · rw [if_pos hlast, shiftOut_last hlast]
    exact .blockRead hp rfl
  · rw [if_neg hlast, shiftOut_more hlast]
    exact .quiet rfl fun _ => rfl

theorem entry_clockIn (h : e.Sound) (now : UInt64) (value : UInt8) :
    e.Entry (.writeBit value) (e.clockInEvents now (bitAt value 0))
      (e.clockIn now (bitAt value 0)) := by
  unfold clockInEvents clockIn
  cases hp : e.phase with
  | idle => exact entry_decode h hp now value
  | writeAddress => exact entry_shiftAddress h (show e.phase = addressPhase false from hp) value
  | readAddress => exact entry_shiftAddress h (show e.phase = addressPhase true from hp) value
  | writeData => exact entry_shiftIn hp now value
  | readData | invalid => exact .quiet rfl fun _ => rfl

theorem entry_clockOut (e : Eeprom) (now : UInt64) (request : Request) :
    e.Entry request e.clockOutEvents (e.clockOut now) := by
  unfold clockOutEvents clockOut
  cases hp : e.phase with
  | idle =>
      dsimp only
      rw [settle_eq]
      exact .quiet rfl fun _ => rfl
  | readData => exact entry_shiftOut hp request
  | writeData | invalid | writeAddress | readAddress => exact .quiet rfl fun _ => rfl

/-- **Every request makes one entry.** -/
theorem entry_respond (h : e.Sound) (hreset : request ≠ .reset)
    (hquiet : request.bringsContents = false) (now : UInt64) :
    ∃ e', ((Chip.eeprom e).respond now request).2 = .eeprom e' ∧
      e.Entry request ((Chip.eeprom e).events now request) e' := by
  cases request with
  | writeBit value => exact ⟨_, rfl, entry_clockIn h now value⟩
  | readBit => exact ⟨_, rfl, entry_clockOut e now .readBit⟩
  | reset => exact absurd rfl hreset
  | loadFile | restore | loadFrom => cases hquiet
  | _ => exact ⟨_, rfl, .quiet rfl fun _ => rfl⟩

/-! ### What an entry says -/

theorem Entry.ofLine (h : a.Entry request events b) : ∀ x ∈ events, x.OfLine := by
  intro x hx
  cases h with
  | quiet => cases hx
  | command hn =>
      obtain ⟨-, rfl⟩ | rfl := mem_warned.mp hx
      · trivial
      · exact ⟨hn, rfl⟩
  | addressed reading =>
      obtain ⟨-, rfl⟩ | rfl := mem_warned.mp hx
      · trivial
      · cases reading <;> rfl
  | written =>
      obtain ⟨-, rfl⟩ | rfl := mem_warned.mp hx
      · trivial
      · trivial
  | blockRead =>
      cases List.mem_singleton.mp hx
      trivial

/-- An entry closes the phase that the chip was in and opens the one that it is in now, if it moves
on at all. -/
theorem Entry.balance (h : a.Entry request events b) {p : Phase} (hp : p ≠ .idle) :
    events.countP (enters p) + (if a.phase = p then 1 else 0) =
      events.countP (leaves p) + if b.phase = p then 1 else 0 := by
  cases h with
  | quiet hphase => rw [hphase]; rfl
  | command hn hidle hphase =>
      rw [countP_warned rfl, countP_warned rfl, hidle, hphase, if_neg hp.symm]
      simp [enters, leaves]
  | addressed reading hphase hopened =>
      rw [hphase, hopened]
      cases reading <;> rw [countP_warned rfl, countP_warned rfl] <;>
        simp [enters, leaves, addressPhase, dataPhase, Nat.add_comm]
  | written hphase hidle =>
      rw [countP_warned rfl, countP_warned rfl, hphase, hidle, if_neg hp.symm]
      simp [enters, leaves]
  | blockRead hphase hidle =>
      rw [hphase, hidle, if_neg hp.symm]
      simp [enters, leaves]

theorem Entry.undefined (h : a.Entry request events b) :
    events.countP (fun x => decide (x = .undefinedCommand)) = events.countP (enters .invalid) := by
  cases h with
  | quiet => rfl
  | @command _ _ n hn =>
      have hn : n = 0 ∨ n = 1 ∨ n = 2 ∨ n = 3 := by omega
      obtain rfl | rfl | rfl | rfl := hn <;> rfl
  | addressed reading => cases reading <;> rw [countP_warned rfl, countP_warned rfl] <;> rfl
  | written => rw [countP_warned rfl, countP_warned rfl]; rfl
  | blockRead => rfl

/-- What an entry is if it has the event in it.  A last bit of one puts a warning before the report
of its transfer. -/
def Means (a : Eeprom) (request : Request) (events : List Event) (b : Eeprom) : Event → Prop
  | .written block deadline =>
      a.phase = .writeData ∧ a.address = block ∧ b.deadline = deadline ∧
        ∃ value, request = .writeBit value ∧
          events = (if bitAt value 0 then [.writeUnterminated] else []) ++ [.written block deadline]
  | .addressed block .readData =>
      ∃ value, request = .writeBit value ∧
        events = (if bitAt value 0 then [.readUnterminated] else []) ++ [.addressed block .readData]
  | .blockRead block => a.phase = .readData ∧ a.address = block ∧ events = [.blockRead block]
  | .readUnterminated => ∃ block, events = [.readUnterminated, .addressed block .readData]
  | .writeUnterminated =>
      ∃ block deadline, events = [.writeUnterminated, .written block deadline]
  | _ => True

theorem Entry.means (h : a.Entry request events b) {x : Event} (hx : x ∈ events) :
    Means a request events b x := by
  cases h with
  | quiet => cases hx
  | command => obtain ⟨-, rfl⟩ | rfl := mem_warned.mp hx <;> trivial
  | addressed reading =>
      obtain ⟨hwarns, rfl⟩ | rfl := mem_warned.mp hx
      · rw [if_pos hwarns]
        obtain ⟨rfl, -⟩ := (Bool.and_eq_true ..).mp hwarns
        exact ⟨_, rfl⟩
      · cases reading with
        | false => trivial
        | true => exact ⟨_, rfl, rfl⟩
  | written hphase hidle hdeadline =>
      obtain ⟨hwarns, rfl⟩ | rfl := mem_warned.mp hx
      · rw [if_pos hwarns]
        exact ⟨_, _, rfl⟩
      · exact ⟨hphase, rfl, hdeadline, _, rfl, rfl⟩
  | blockRead hphase =>
      obtain rfl := List.mem_singleton.mp hx
      exact ⟨hphase, rfl, rfl⟩

/-- The address register keeps the block that was named last while its data move. -/
theorem Entry.latest (h : a.Entry request events b) {log : List Event}
    (hlog : a.phase.transfersData = true → latestAddressed log = some (.addressed a.address a.phase))
    (hdata : b.phase.transfersData = true) :
    latestAddressed (log ++ events) = some (.addressed b.address b.phase) := by
  cases h with
  | quiet hphase haddress =>
      rw [hphase] at hdata ⊢
      rw [haddress hdata, List.append_nil]
      exact hlog hdata
  | command hn hidle hphase => exact absurd hphase (Phase.ne_ofCommand hdata _)
  | addressed reading hphase hopened hblock =>
      rw [← List.append_assoc, hopened, hblock]
      exact latestAddressed_concat ..
  | written hphase hidle | blockRead hphase hidle =>
      rw [hidle] at hdata
      cases hdata

/-! ### The ledger -/

/-- The log and the chip agree about every phase that was opened. -/
structure Ledger (log : List Event) (e : Eeprom) : Prop where
  ofLine : ∀ x ∈ log, x.OfLine
  balance : ∀ p ≠ .idle, log.countP (enters p) = log.countP (leaves p) + if e.phase = p then 1 else 0
  undefined : log.countP (fun x => decide (x = .undefinedCommand)) = log.countP (enters .invalid)
  latest : e.phase.transfersData = true →
    latestAddressed log = some (.addressed e.address e.phase)

theorem ledger_fresh (c : Capacity) : Ledger [] (fresh c) where
  ofLine := nofun
  balance p hp := by
    have hidle : ¬(fresh c).phase = p := fun h => hp h.symm
    rw [if_neg hidle]
    rfl
  undefined := rfl
  latest := nofun

variable {log : List Event}

theorem Ledger.append (hl : Ledger log a) (h : a.Entry request events b) :
    Ledger (log ++ events) b where
  ofLine := List.forall_mem_append.mpr ⟨hl.ofLine, h.ofLine⟩
  balance p hp := by
    have hbefore := hl.balance p hp
    have hentry := h.balance hp
    rw [List.countP_append, List.countP_append]
    omega
  undefined := by rw [List.countP_append, List.countP_append, hl.undefined, h.undefined]
  latest := h.latest hl.latest

theorem enters_dataPhase {x : Event} (h : x.OfLine) (reading : Bool) :
    x.enters (dataPhase reading) = x.leaves (addressPhase reading) := by
  cases x with
  | command n phase =>
      obtain ⟨-, rfl⟩ := h
      have hdata : (dataPhase reading).transfersData = true := by cases reading <;> rfl
      exact decide_eq_false (Phase.ne_ofCommand hdata n).symm
  | addressed block phase => cases phase <;> cases h <;> cases reading <;> rfl
  | written | blockRead => cases reading <;> rfl
  | _ => rfl

theorem leaves_invalid (x : Event) : x.leaves .invalid = false := by
  cases x with
  | addressed block phase => cases phase <;> rfl
  | _ => rfl

/-! ### Counting lines -/

/-- Every command that opens a transfer is followed by its address, or the address is on its way. -/
theorem Ledger.addressLines (hl : Ledger log e) (reading : Bool) :
    lines log .trace [(Event.command (2 + reading.toNat) (addressPhase reading)).message] =
      lines log .trace ["EEPROM block ", " -> " ++ (dataPhase reading).name] +
        if e.phase = addressPhase reading then 1 else 0 := by
  have hcommand : Phase.ofCommand (2 + reading.toNat) = addressPhase reading := by
    cases reading <;> rfl
  have hle : 2 + reading.toNat ≤ 3 := by cases reading <;> decide
  have hdata : (dataPhase reading).transfersData = true := by cases reading <;> rfl
  have hidle : addressPhase reading ≠ .idle := by cases reading <;> nofun
  have hopened : log.countP (enters (dataPhase reading)) =
      log.countP (leaves (addressPhase reading)) :=
    List.countP_congr fun x hx => by rw [enters_dataPhase (hl.ofLine x hx)]
  rw [← hcommand, lines_eq hl.ofLine fun hx => reads_command hx hle,
    lines_eq hl.ofLine fun hx => reads_addressed hx hdata, hopened, hcommand]
  exact hl.balance _ hidle

theorem Ledger.writtenLines (hl : Ledger log e) :
    lines log .trace ["EEPROM block ", " -> WriteData"] =
      lines log .debug ["EEPROM block ", " written, busy until cycle ", ""] +
        if e.phase = .writeData then 1 else 0 := by
  have hopened : lines log .trace ["EEPROM block ", " -> WriteData"] =
      log.countP (enters .writeData) :=
    lines_eq hl.ofLine fun hx => reads_addressed hx (p := .writeData) rfl
  rw [hopened, lines_eq hl.ofLine reads_written]
  exact hl.balance .writeData nofun

theorem Ledger.readLines (hl : Ledger log e) :
    lines log .trace ["EEPROM block ", " -> ReadData"] =
      lines log .debug ["EEPROM block ", " read"] + if e.phase = .readData then 1 else 0 := by
  have hopened : lines log .trace ["EEPROM block ", " -> ReadData"] =
      log.countP (enters .readData) :=
    lines_eq hl.ofLine fun hx => reads_addressed hx (p := .readData) rfl
  rw [hopened, lines_eq hl.ofLine reads_blockRead]
  exact hl.balance .readData nofun

theorem Ledger.undefinedLines (hl : Ledger log e) :
    lines log .trace ["EEPROM command 01 -> Invalid"] = (if e.phase = .invalid then 1 else 0) ∧
      lines log .warn ["EEPROM command 01 is undefined, chip stops responding until reset"] =
        if e.phase = .invalid then 1 else 0 := by
  have hcommand : lines log .trace ["EEPROM command 01 -> Invalid"] =
      log.countP (enters .invalid) :=
    lines_eq hl.ofLine fun hx => reads_command hx (n := 1) (by decide)
  have hnone : log.countP (leaves .invalid) = 0 :=
    List.countP_eq_zero.mpr fun x _ => Bool.eq_false_iff.mp (leaves_invalid x)
  have hentered : log.countP (enters .invalid) = if e.phase = .invalid then 1 else 0 := by
    rw [hl.balance .invalid nofun, hnone, Nat.zero_add]
  rw [hcommand, lines_eq hl.ofLine reads_undefined, hl.undefined]
  exact ⟨hentered, hentered⟩

/-! ### Runs -/

/-- Nothing that a whole run reports upsets the ledger. -/
theorem Ledger.run (hl : Ledger log e) (h : e.Sound) {script : List (UInt64 × Request)}
    (hquiet : ∀ x ∈ script, x.2 ≠ .reset ∧ x.2.bringsContents = false) :
    ∃ e', ((Chip.eeprom e).run script).2 = .eeprom e' ∧
      Ledger (log ++ (Chip.eeprom e).runEvents script) e' := by
  induction script generalizing e log with
  | nil => exact ⟨e, rfl, by rwa [Chip.runEvents, List.append_nil]⟩
  | cons x script ih =>
      obtain ⟨now, request⟩ := x
      obtain ⟨⟨hreset, hfirst⟩, hrest⟩ := List.forall_mem_cons.mp hquiet
      obtain ⟨e', hafter, hentry⟩ := entry_respond h hreset hfirst now
      have hsound : (Chip.eeprom e').Sound := hafter ▸ Chip.Sound.respond (c := .eeprom e) h now request
      obtain ⟨e'', hrun, hledger⟩ := ih (hl.append hentry) hsound hrest
      refine ⟨e'', ?_, ?_⟩
      · rw [Chip.run, hafter]
        exact hrun
      · rw [Chip.runEvents, hafter, ← List.append_assoc]
        exact hledger

/-- A completed transfer is reported after its address, and a warning before what it warns of. -/
theorem Ledger.places (hl : Ledger log a) (h : a.Entry request events b) {front back : List Event}
    {x : Event} (hsplit : events = front ++ x :: back) :
    (∀ block deadline, x = .written block deadline →
        latestAddressed (log ++ front) = some (.addressed block .writeData)) ∧
      (∀ block, x = .blockRead block →
        latestAddressed (log ++ front) = some (.addressed block .readData)) ∧
      (x = .readUnterminated → ∃ block, back.head? = some (.addressed block .readData)) ∧
      (x = .writeUnterminated → ∃ block deadline, back.head? = some (.written block deadline)) := by
  have hfront : ∀ y ∈ front, y ∈ events := by
    intro y hy
    rw [hsplit]
    exact List.mem_append_left _ hy
  have hx : x ∈ events := by
    rw [hsplit]
    exact List.mem_append_right _ List.mem_cons_self
  refine ⟨?_, ?_, ?_, ?_⟩
  · rintro block deadline rfl
    obtain ⟨hphase, rfl, -, value, -, hevents⟩ := h.means hx
    rw [latestAddressed_append_of_forall, hl.latest (by rw [hphase]; rfl), hphase]
    intro y hy
    obtain ⟨-, rfl⟩ | rfl := mem_warned.mp (hevents ▸ hfront y hy) <;> rfl
  · rintro block rfl
    obtain ⟨hphase, rfl, hevents⟩ := h.means hx
    rw [latestAddressed_append_of_forall, hl.latest (by rw [hphase]; rfl), hphase]
    intro y hy
    cases List.mem_singleton.mp (hevents ▸ hfront y hy)
    rfl
  · rintro rfl
    obtain ⟨block, hevents⟩ := h.means hx
    rw [hevents] at hsplit
    exact ⟨block, head?_of_pair hsplit nofun⟩
  · rintro rfl
    obtain ⟨block, deadline, hevents⟩ := h.means hx
    rw [hevents] at hsplit
    exact ⟨block, deadline, head?_of_pair hsplit nofun⟩

end Eeprom

namespace Chip

open Event

/-- Every line of the log comes from one request. -/
theorem runEvents_split (c : Chip) (script : List (UInt64 × Request)) {front back : List Event}
    {x : Event} (hsplit : c.runEvents script = front ++ x :: back) :
    ∃ before now request after front' back' later,
      script = before ++ (now, request) :: after ∧ front = c.runEvents before ++ front' ∧
        (c.run before).2.events now request = front' ++ x :: back' ∧ back = back' ++ later := by
  induction script using List.reverseRecOn generalizing back with
  | nil => cases front <;> cases hsplit
  | append_singleton script y ih =>
      obtain ⟨now, request⟩ := y
      have hlast : (c.run script).2.runEvents [(now, request)] =
          (c.run script).2.events now request := List.append_nil _
      rw [runEvents_append, hlast, List.append_eq_append_iff] at hsplit
      obtain ⟨front', rfl, hevents⟩ | ⟨rest, hbefore, hrest⟩ := hsplit
      · exact ⟨script, now, request, [], front', back, [], rfl, rfl, hevents,
          (List.append_nil back).symm⟩
      · cases rest with
        | nil =>
            rw [List.append_nil] at hbefore
            exact ⟨script, now, request, [], [], back, [], rfl, by rw [hbefore, List.append_nil],
              hrest.symm, (List.append_nil back).symm⟩
        | cons y rest =>
            obtain ⟨rfl, rfl⟩ := List.cons.inj hrest
            obtain ⟨before, now', request', after, front', back', later, rfl, hfront, hevents, rfl⟩ :=
              ih hbefore
            exact ⟨before, now', request', after ++ [(now, request)], front', back', _,
              List.append_assoc .., hfront, hevents, List.append_assoc ..⟩

/-- **The log is a ledger of the transfers.**  At every point of a run the lines for a phase that was
opened are those for a phase that was closed, and one more if the chip is in it.  A completed
transfer names the block that was named last, and a write the deadline that it sets; a line about a
last bit of one stands right before the report of that transfer. -/
theorem ledger_reached (c : Capacity) {script : List (UInt64 × Request)}
    (hquiet : ∀ x ∈ script, x.2 ≠ .reset ∧ x.2.bringsContents = false) :
    let log := (fresh (.eeprom c)).runEvents script
    let undefinedLine := "EEPROM command 01 is undefined, chip stops responding until reset"
    (∃ e, reached (.eeprom c) script = eeprom e ∧
      lines log .trace ["EEPROM command 10 -> WriteAddress"] =
        lines log .trace ["EEPROM block ", " -> WriteData"] +
          (if e.phase = .writeAddress then 1 else 0) ∧
      lines log .trace ["EEPROM block ", " -> WriteData"] =
        lines log .debug ["EEPROM block ", " written, busy until cycle ", ""] +
          (if e.phase = .writeData then 1 else 0) ∧
      lines log .trace ["EEPROM command 11 -> ReadAddress"] =
        lines log .trace ["EEPROM block ", " -> ReadData"] +
          (if e.phase = .readAddress then 1 else 0) ∧
      lines log .trace ["EEPROM block ", " -> ReadData"] =
        lines log .debug ["EEPROM block ", " read"] + (if e.phase = .readData then 1 else 0) ∧
      lines log .trace ["EEPROM command 01 -> Invalid"] = lines log .warn [undefinedLine] ∧
      lines log .warn [undefinedLine] = if e.phase = .invalid then 1 else 0) ∧
    (∀ front x back, log = front ++ x :: back →
      (∀ block deadline, x = .written block deadline →
        latestAddressed front = some (.addressed block .writeData)) ∧
      (∀ block, x = .blockRead block →
        latestAddressed front = some (.addressed block .readData)) ∧
      (x = .readUnterminated → ∃ block, back.head? = some (.addressed block .readData)) ∧
      (x = .writeUnterminated → ∃ block deadline, back.head? = some (.written block deadline))) ∧
    ∀ before now request after, script = before ++ (now, request) :: after →
      ∃ e₁ e₂, ((fresh (.eeprom c)).run before).2 = eeprom e₁ ∧
        ((eeprom e₁).respond now request).2 = eeprom e₂ ∧
        (∀ block deadline, .written block deadline ∈ (eeprom e₁).events now request →
          e₂.deadline = deadline ∧ ∃ value, request = .writeBit value ∧
            (eeprom e₁).events now request =
              (if bitAt value 0 then [.writeUnterminated] else []) ++ [.written block deadline]) ∧
        ∀ block, .addressed block .readData ∈ (eeprom e₁).events now request →
          ∃ value, request = .writeBit value ∧
            (eeprom e₁).events now request =
              (if bitAt value 0 then [.readUnterminated] else []) ++
                [.addressed block .readData] := by
  intro log undefinedLine
  have hcall : ∀ before now request after, script = before ++ (now, request) :: after →
      ∃ e₁ e₂, ((fresh (.eeprom c)).run before).2 = eeprom e₁ ∧
        ((eeprom e₁).respond now request).2 = eeprom e₂ ∧
        Eeprom.Ledger ((fresh (.eeprom c)).runEvents before) e₁ ∧
        e₁.Entry request ((eeprom e₁).events now request) e₂ := by
    rintro before now request after rfl
    obtain ⟨hbefore, hlater⟩ := List.forall_mem_append.mp hquiet
    obtain ⟨⟨hreset, hfirst⟩, -⟩ := List.forall_mem_cons.mp hlater
    obtain ⟨e₁, hrun, hledger⟩ :=
      (Eeprom.ledger_fresh c).run (Eeprom.sound_fresh c) hbefore
    obtain ⟨hsound, -⟩ := sound_of_reached hrun
    obtain ⟨e₂, hafter, hentry⟩ := Eeprom.entry_respond hsound hreset hfirst now
    exact ⟨e₁, e₂, hrun, hafter, hledger, hentry⟩
  refine ⟨?_, ?_, ?_⟩
  · obtain ⟨e, hrun, hledger⟩ := (Eeprom.ledger_fresh c).run (Eeprom.sound_fresh c) hquiet
    obtain ⟨hinvalid, hwarned⟩ := hledger.undefinedLines
    exact ⟨e, hrun, hledger.addressLines false, hledger.writtenLines, hledger.addressLines true,
      hledger.readLines, hinvalid.trans hwarned.symm, hwarned⟩
  · rintro front x back hsplit
    obtain ⟨before, now, request, after, front', back', later, hscript, rfl, hevents, rfl⟩ :=
      runEvents_split _ script hsplit
    obtain ⟨e₁, e₂, hrun, hafter, hledger, hentry⟩ := hcall before now request after hscript
    rw [hrun] at hevents
    obtain ⟨hwritten, hblockRead, hread, hwrite⟩ := hledger.places hentry hevents
    refine ⟨hwritten, hblockRead, fun hx => ?_, fun hx => ?_⟩
    · obtain ⟨block, hnext⟩ := hread hx
      exact ⟨block, by rw [List.head?_append, hnext, Option.some_or]⟩
    · obtain ⟨block, deadline, hnext⟩ := hwrite hx
      exact ⟨block, deadline, by rw [List.head?_append, hnext, Option.some_or]⟩
  · intro before now request after hscript
    obtain ⟨e₁, e₂, hrun, hafter, hledger, hentry⟩ := hcall before now request after hscript
    refine ⟨e₁, e₂, hrun, hafter, ?_, ?_⟩
    · intro block deadline hx
      obtain ⟨-, -, hdeadline, hwhole⟩ := hentry.means hx
      exact ⟨hdeadline, hwhole⟩
    · intro block hx
      exact hentry.means hx

/-- A write to block 5 and the address of a read from block 3, each with a last bit of one. -/
theorem ledger_reached_unterminated :
    let written : List UInt8 := [1, 0] ++ [0, 0, 0, 1, 0, 1] ++ List.replicate 64 0 ++ [1]
    let reading : List UInt8 := [1, 1] ++ [0, 0, 0, 0, 1, 1] ++ [1]
    let script : List (UInt64 × Request) :=
      written.map (fun value => (1, .writeBit value)) ++
        reading.map (fun value => (200000, .writeBit value))
    let log := (fresh (.eeprom .small)).runEvents script
    (∀ x ∈ script, x.2 ≠ .reset ∧ x.2.bringsContents = false) ∧
      log =
        [.command 2 .writeAddress, .addressed 5 .writeData, .writeUnterminated, .written 5 108369,
          .command 3 .readAddress, .readUnterminated, .addressed 3 .readData] ∧
      lines log .trace ["EEPROM block ", " -> ReadData"] = 1 ∧
      lines log .debug ["EEPROM block ", " read"] = 0 ∧
      latestAddressed (log.take 3) = some (.addressed 5 .writeData) ∧
      ∃ e, reached (.eeprom .small) script = eeprom e ∧ e.phase = .readData := by
  intro written reading script log
  have hquiet : ∀ x ∈ script, x.2 ≠ .reset ∧ x.2.bringsContents = false := by decide +kernel
  have hlog : log =
      [.command 2 .writeAddress, .addressed 5 .writeData, .writeUnterminated, .written 5 108369,
        .command 3 .readAddress, .readUnterminated, .addressed 3 .readData] := by decide +kernel
  have hopened : lines log .trace ["EEPROM block ", " -> ReadData"] = 1 := by
    rw [hlog]
    decide +kernel
  have hclosed : lines log .debug ["EEPROM block ", " read"] = 0 := by
    rw [hlog]
    decide +kernel
  obtain ⟨⟨e, hreached, -, -, -, hread, -⟩, hplaces, -⟩ := ledger_reached .small hquiet
  have hphase : e.phase = .readData := by
    by_contra hother
    have hsame : lines log .trace ["EEPROM block ", " -> ReadData"] =
        lines log .debug ["EEPROM block ", " read"] + if e.phase = .readData then 1 else 0 := hread
    rw [hopened, hclosed, if_neg hother] at hsame
    cases hsame
  have hsplit : log = log.take 3 ++ .written 5 108369 :: log.drop 4 := by
    rw [hlog]
    rfl
  obtain ⟨hwritten, -⟩ := hplaces _ _ _ hsplit
  exact ⟨hquiet, hlog, hopened, hclosed, hwritten _ _ rfl, e, hreached, hphase⟩

end Chip

end SaveChip
