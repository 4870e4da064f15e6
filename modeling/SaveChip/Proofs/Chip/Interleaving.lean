import SaveChip.Proofs.Chip.BusyWindow
import SaveChip.Proofs.Chip.WordArray

/-! # Transfers among other requests

A game is not alone with the chip.  While the bits of a transfer go over the line the processor uses
the bus, a debugger looks on, the host saves, and the line is polled.  Of all this a chip in the
middle of a transfer notices what happens on the line, and of that only what its phase is about:

* while it takes bits, a script acts on it as the bits do that it sends (`run_held`);
* while it sends bits, a script acts on it as the reads of the line do (`run_reading`).

So a frame that is sent among other requests has the effect it has by itself (`Sends.run`), and so
has a block that is read among other requests (`Reads.run`). -/

namespace SaveChip

namespace Request

/-- Leaves a serial chip as it is, and its line alone. -/
def isBystander : Request → Bool
  | kind | read .. | write .. | peek _ | poke .. | tick | contents | snapshotSize | snapshot
  | saveInto _ => true
  | _ => false

/-- May come while a transfer is under way. -/
def accompanies (request : Request) : Bool := request.isBystander || request.usesLine

/-- The bit that a request puts on the line. -/
def sent? : Request → Option Bool
  | writeBit value => some (bitAt value 0)
  | _ => none

end Request

/-- The bits that a script puts on the line, each at its time. -/
def sentBits (script : List (UInt64 × Request)) : List (UInt64 × Bool) :=
  script.filterMap fun x => x.2.sent?.map (x.1, ·)

/-- The times at which a script reads the line. -/
def readTimes (script : List (UInt64 × Request)) : List UInt64 :=
  script.filterMap fun x => if x.2 = .readBit then some x.1 else none

/-- The script sends a series of bits, the first one at `start` and the last one at `finish`.
Between them comes whatever may accompany a transfer, at any time. -/
structure Sends (bits : List Bool) (start finish : UInt64) (script : List (UInt64 × Request)) :
    Prop where
  accompanied : ∀ x ∈ script, x.2.accompanies = true
  sent : (sentBits script).map Prod.snd = bits
  first : ∃ value, script.head? = some (start, .writeBit value)
  last : ∃ value, script.getLast? = some (finish, .writeBit value)

/-- The script reads the line `count` times, and the last read ends it.  Before and between the
reads comes whatever may accompany a transfer, at any time. -/
structure Reads (count : Nat) (script : List (UInt64 × Request)) : Prop where
  accompanied : ∀ x ∈ script, x.2.accompanies = true
  count : (readTimes script).length = count
  last : ∃ now, script.getLast? = some (now, .readBit)

section

variable {script : List (UInt64 × Request)} {now : UInt64} {request : Request}

theorem getLast?_after {α : Type} {before after : List α} {x y : α}
    (h : (before ++ x :: after).getLast? = some y) (hne : x ≠ y) : after.getLast? = some y := by
  rw [List.getLast?_append] at h
  cases after with
  | nil => exact absurd (Option.some.inj h) hne
  | cons z after => simpa using h

theorem front_of_append {α : Type} {front back rest : List α} {x y z : α}
    (h : front ++ back = x :: y :: (rest ++ [z])) (hfront : front ≠ []) (hback : back ≠ []) :
    front = [x] ∨ ∃ inner, front = x :: y :: inner ∧ inner.length ≤ rest.length := by
  match front with
  | [] => exact absurd rfl hfront
  | [x'] =>
      cases (List.cons.inj h).1
      exact .inl rfl
  | x' :: y' :: inner =>
      rw [List.cons_append, List.cons_append] at h
      obtain ⟨hx, hlater⟩ := List.cons.inj h
      obtain ⟨hy, hend⟩ := List.cons.inj hlater
      have hlength := congrArg List.length hend
      have hpos := List.length_pos_iff.mpr hback
      rw [List.length_append, List.length_append, List.length_singleton] at hlength
      exact .inr ⟨inner, by rw [hx, hy], by omega⟩

theorem split_of_front {α : Type} {whole front back before after : List α} {x : α}
    (hwhole : whole = front ++ back) (hfront : front = before ++ x :: after) :
    whole = before ++ x :: (after ++ back) := by
  rw [hwhole, hfront, List.append_assoc, List.cons_append]

theorem sentBits_append (xs ys : List (UInt64 × Request)) :
    sentBits (xs ++ ys) = sentBits xs ++ sentBits ys := List.filterMap_append

theorem readTimes_append (xs ys : List (UInt64 × Request)) :
    readTimes (xs ++ ys) = readTimes xs ++ readTimes ys := List.filterMap_append

theorem Request.accompanies_cases (h : request.accompanies = true) :
    (request.isBystander = true ∧ request.sent? = none ∧ request ≠ .readBit) ∨
      request = .readBit ∨ ∃ value, request = .writeBit value := by
  cases request with
  | readBit => exact .inr (.inl rfl)
  | writeBit value => exact .inr (.inr ⟨value, rfl⟩)
  | kind | read | write | peek | poke | tick | contents | snapshotSize | snapshot | saveInto =>
      exact .inl ⟨rfl, rfl, nofun⟩
  | reset | loadFile | takeDirty | restore | loadFrom => cases h

theorem sentBits_bystander (h : request.sent? = none) :
    sentBits ((now, request) :: script) = sentBits script := by
  simp [sentBits, h]

theorem readTimes_of_ne (h : request ≠ .readBit) :
    readTimes ((now, request) :: script) = readTimes script := by
  simp [readTimes, h]

end

/-! ### Chips that take bits -/

namespace Eeprom

variable {e : Eeprom} {level : Bool}

/-- The line keeps its level, and reading it has no effect. -/
structure Holds (e : Eeprom) (level : Bool) : Prop where
  output : ∀ now, e.output now = level
  clockOut : ∀ now, e.clockOut now = e

theorem holds_ready (hp : e.phase = .idle) (hready : e.ready = true) : e.Holds true := by
  have hsettle : ∀ now, e.settle now = e := by
    intro now
    rw [settle_eq, hready, Bool.true_or, ← hready]
  constructor
  · intro now
    rw [output, hp]
    dsimp only
    rw [hsettle, hready]
  · intro now
    rw [clockOut, hp]
    exact hsettle now

theorem holds_midway (hidle : e.phase ≠ .idle) (hread : e.phase ≠ .readData) : e.Holds false := by
  constructor
  · intro now
    unfold output
    cases hp : e.phase with
    | idle => exact absurd hp hidle
    | readData => exact absurd hp hread
    | writeData | invalid | writeAddress | readAddress => rfl
  · intro now
    unfold clockOut
    cases hp : e.phase with
    | idle => exact absurd hp hidle
    | readData => exact absurd hp hread
    | writeData | invalid | writeAddress | readAddress => rfl

end Eeprom

namespace Chip

variable {e : Eeprom} {script before after : List (UInt64 × Request)} {now : UInt64}
  {request : Request}

theorem respond_bystander (h : request.isBystander = true) (e : Eeprom) (now : UInt64) :
    ((eeprom e).respond now request).2 = eeprom e := by
  cases request with
  | kind | read | write | peek | poke | tick | contents | snapshotSize | snapshot | saveInto => rfl
  | readBit | writeBit | reset | loadFile | takeDirty | restore | loadFrom => cases h

theorem reply_run (c : Chip) (before : List (UInt64 × Request)) (now : UInt64) (request : Request)
    (after : List (UInt64 × Request)) :
    (c.run (before ++ (now, request) :: after)).1[before.length]? =
      some ((c.run before).2.respond now request).1 := by
  have hlength : (c.run before).1.length = before.length := by
    induction before generalizing c with
    | nil => rfl
    | cons x before ih => simp [run, ih]
  rw [run_append, ← hlength, List.getElem?_append_right (Nat.le_refl _), Nat.sub_self, run]
  rfl

/-- If every read finds the line held, a script does to the chip what the bits do that it sends. -/
theorem run_held (haccompanied : ∀ x ∈ script, x.2.accompanies = true)
    (hheld : ∀ before now after, script = before ++ (now, .readBit) :: after →
      ∃ level, (e.send (sentBits before)).Holds level) :
    ((eeprom e).run script).2 = eeprom (e.send (sentBits script)) := by
  induction script generalizing e with
  | nil => rfl
  | cons x script ih =>
      obtain ⟨now, request⟩ := x
      obtain ⟨hfirst, hlater⟩ := List.forall_mem_cons.mp haccompanied
      rw [run]
      obtain ⟨hbystander, hsent, -⟩ | rfl | ⟨value, rfl⟩ := Request.accompanies_cases hfirst
      · have hrest := ih hlater (e := e) (by
          intro before now' after hscript
          have hheld' := hheld ((now, request) :: before) now' after (by rw [hscript]; rfl)
          rwa [sentBits_bystander hsent] at hheld')
        rw [respond_bystander hbystander, sentBits_bystander hsent, hrest]
      · obtain ⟨level, hlevel⟩ := hheld [] now script rfl
        have hrest := ih hlater (e := e) (by
          intro before now' after hscript
          exact hheld ((now, .readBit) :: before) now' after (by rw [hscript]; rfl))
        have hstill : ((eeprom e).respond now .readBit).2 = eeprom e :=
          congrArg eeprom (hlevel.clockOut now)
        rw [hstill, hrest]
        rfl
      · exact ih hlater (e := e.clockIn now (bitAt value 0)) (by
          intro before now' after hscript
          exact hheld ((now, .writeBit value) :: before) now' after (by rw [hscript]; rfl))

/-- If every request finds the chip sending a block, a script does to it what its reads do. -/
theorem run_reading (haccompanied : ∀ x ∈ script, x.2.accompanies = true)
    (hreading : ∀ before x after, script = before ++ x :: after →
      (e.receive (readTimes before)).2.phase = .readData) :
    ((eeprom e).run script).2 = eeprom (e.receive (readTimes script)).2 := by
  induction script generalizing e with
  | nil => rfl
  | cons x script ih =>
      obtain ⟨now, request⟩ := x
      obtain ⟨hfirst, hlater⟩ := List.forall_mem_cons.mp haccompanied
      rw [run]
      obtain ⟨hbystander, -, hread⟩ | rfl | ⟨value, rfl⟩ := Request.accompanies_cases hfirst
      · have hrest := ih hlater (e := e) (by
          intro before x after hscript
          have hreading' := hreading ((now, request) :: before) x after (by rw [hscript]; rfl)
          rwa [readTimes_of_ne hread] at hreading')
        rw [respond_bystander hbystander, readTimes_of_ne hread, hrest]
      · exact ih hlater (e := e.clockOut now) (by
          intro before x after hscript
          exact hreading ((now, .readBit) :: before) x after (by rw [hscript]; rfl))
      · have hphase : e.phase = .readData := hreading [] (now, .writeBit value) script rfl
        have hdeaf : ((eeprom e).respond now (.writeBit value)).2 = eeprom e :=
          congrArg eeprom (Eeprom.send_deaf (.inr hphase) [(now, bitAt value 0)])
        have hrest := ih hlater (e := e) (by
          intro before x after hscript
          exact hreading ((now, .writeBit value) :: before) x after (by rw [hscript]; rfl))
        rw [hdeaf, hrest]
        rfl

end Chip

/-! ### Frames among other requests -/

namespace Sends

variable {b b' x : Bool} {xs : List Bool} {start finish now : UInt64}
  {script before after : List (UInt64 × Request)}

theorem sentBits_eq (h : Sends (b :: b' :: (xs ++ [x])) start finish script) :
    ∃ t' sent, sentBits script = (start, b) :: (t', b') :: (sent ++ [(finish, x)]) ∧
      sent.map Prod.snd = xs := by
  obtain ⟨⟨t, c⟩, rest, hbits, rfl, hrest⟩ := List.map_eq_cons_iff.mp h.sent
  obtain ⟨⟨t', c'⟩, later, rfl, rfl, hlater⟩ := List.map_eq_cons_iff.mp hrest
  obtain ⟨sent, ending, rfl, hsent, hending⟩ := List.map_eq_append_iff.mp hlater
  obtain ⟨⟨t'', y⟩, rfl, rfl⟩ := List.map_eq_singleton_iff.mp hending
  obtain ⟨value, hfirst⟩ := h.first
  obtain ⟨value', hlast⟩ := h.last
  obtain ⟨front, rfl⟩ := List.getLast?_eq_some_iff.mp hlast
  have hstart : t = start := by
    obtain ⟨back, hback⟩ := List.head?_eq_some_iff.mp hfirst
    rw [hback] at hbits
    exact (congrArg Prod.fst (List.cons.inj hbits).1).symm
  have hfinish : t'' = finish := by
    have hends : sentBits front ++ [(finish, bitAt value' 0)] =
        ((t, c) :: (t', c') :: sent) ++ [(t'', y)] := (sentBits_append front _).symm.trans hbits
    obtain ⟨-, hend⟩ := List.append_inj' hends rfl
    exact (congrArg Prod.fst (List.cons.inj hend).1).symm
  subst hstart hfinish
  exact ⟨t', sent, hbits, hsent⟩

theorem sentBits_before (h : Sends (b :: b' :: (xs ++ [x])) start finish script)
    (hscript : script = before ++ (now, .readBit) :: after) :
    sentBits before = [(start, b)] ∨
      ∃ t' sent, sentBits before = (start, b) :: (t', b') :: sent ∧ sent.length ≤ xs.length := by
  obtain ⟨t', sent, hbits, hsent⟩ := h.sentBits_eq
  obtain ⟨value, hfirst⟩ := h.first
  obtain ⟨value', hlast⟩ := h.last
  subst hscript
  have hfront : sentBits before ≠ [] := by
    cases before with
    | nil => cases hfirst
    | cons y before =>
        cases hfirst
        exact List.cons_ne_nil _ _
  have hback : sentBits after ≠ [] := by
    obtain ⟨back, rfl⟩ := List.getLast?_eq_some_iff.mp (getLast?_after hlast nofun)
    rw [sentBits_append]
    exact List.append_ne_nil_of_right_ne_nil _ (List.cons_ne_nil _ _)
  rw [sentBits_append] at hbits
  change sentBits before ++ sentBits after = _ at hbits
  rw [← hsent, List.length_map]
  obtain hfirst | ⟨inner, hinner, hlength⟩ := front_of_append hbits hfront hback
  · exact .inl hfirst
  · exact .inr ⟨t', inner, hinner, hlength⟩

/-- **A frame among other requests** has the effect that it has by itself, if the line is low
between the second bit and the last one.  A read of the line among its bits finds the chip ready
before the second bit, and zero after it. -/
theorem run {e : Eeprom} (h : Sends (b :: b' :: (xs ++ [x])) start finish script) (hr : e.Resting)
    (hl : e.Listening start)
    (hlow : ∀ t' sent, sent.length ≤ xs.length →
      (e.send ((start, b) :: (t', b') :: sent)).Holds false) :
    ((Chip.eeprom e).run script).2 = .eeprom (e.send (sentBits script)) ∧
      ∀ before now after, script = before ++ (now, .readBit) :: after →
        ((Chip.eeprom e).run script).1[before.length]? =
          some (.bit (decide ((sentBits before).length = 1))) := by
  have hheld : ∀ before now after, script = before ++ (now, .readBit) :: after →
      (e.send (sentBits before)).Holds (decide ((sentBits before).length = 1)) := by
    intro before now after hscript
    obtain hfirst | ⟨t', sent, hlater, hlength⟩ := h.sentBits_before hscript
    · rw [hfirst, Eeprom.send, Eeprom.send, Eeprom.clockIn_first hr hl]
      exact Eeprom.holds_ready hr.phase rfl
    · rw [hlater]
      have hcount : ((start, b) :: (t', b') :: sent).length ≠ 1 := by simp
      rw [decide_eq_false hcount]
      exact hlow t' sent hlength
  refine ⟨Chip.run_held h.accompanied fun before now after hscript =>
    ⟨_, hheld before now after hscript⟩, ?_⟩
  intro before now after hscript
  have hbefore : ((Chip.eeprom e).run before).2 = .eeprom (e.send (sentBits before)) := by
    apply Chip.run_held
    · intro y hy
      exact h.accompanied y (hscript ▸ List.mem_append_left _ hy)
    · intro before' now' after' hsplit
      exact ⟨_, hheld before' now' _ (split_of_front hscript hsplit)⟩
  rw [hscript, Chip.reply_run, hbefore]
  exact congrArg (some ∘ Reply.bit) ((hheld before now after hscript).output now)

end Sends

/-! ### Blocks among other requests -/

namespace Reads

variable {e : Eeprom} {count : Nat} {script before after : List (UInt64 × Request)}

theorem length_readTimes_lt (h : Reads count script) {x : UInt64 × Request}
    (hscript : script = before ++ x :: after) : (readTimes before).length < count := by
  obtain ⟨now, hlast⟩ := h.last
  have hback : readTimes (x :: after) ≠ [] := by
    rw [hscript, List.getLast?_append] at hlast
    have hend : (x :: after).getLast? = some (now, .readBit) := by
      simpa using hlast
    obtain ⟨back, hafter⟩ := List.getLast?_eq_some_iff.mp hend
    rw [hafter, readTimes_append]
    exact List.append_ne_nil_of_right_ne_nil _ (List.cons_ne_nil _ _)
  have hpos := List.length_pos_iff.mpr hback
  have hcount := h.count
  rw [hscript, readTimes_append, List.length_append] at hcount
  omega

/-- **A block among other requests** is read as it is by itself, and the chip is idle after it. -/
theorem run (h : Reads (leadBits + blockBits) script) (hp : e.phase = .readData)
    (hs : e.shifted = 0) :
    ((Chip.eeprom e).run script).2 =
        .eeprom { e with shifted := 0, phase := .idle, ready := true } ∧
      ∀ before now after, script = before ++ (now, .readBit) :: after →
        ((Chip.eeprom e).run script).1[before.length]? =
          some (.bit (e.lineBit (readTimes before).length)) := by
  have hreceived : ∀ before x after, script = before ++ x :: after →
      (e.receive (readTimes before)).2 = { e with shifted := (readTimes before).length } := by
    intro before x after hscript
    have hlt := h.length_readTimes_lt hscript
    have hroom : e.shifted + (readTimes before).length ≠ leadBits + blockBits := by omega
    rw [Eeprom.receive_data hp _ (by rw [hs]; decide) (by omega), if_neg hroom, hs, Nat.zero_add]
  have hreading : ∀ before x after, script = before ++ x :: after →
      (e.receive (readTimes before)).2.phase = .readData := by
    intro before x after hscript
    rw [hreceived before x after hscript]
    exact hp
  constructor
  · rw [Chip.run_reading h.accompanied hreading, Eeprom.receive_block hp hs h.count]
  · intro before now after hscript
    have hbefore : ((Chip.eeprom e).run before).2 = .eeprom (e.receive (readTimes before)).2 := by
      apply Chip.run_reading
      · intro y hy
        exact h.accompanied y (hscript ▸ List.mem_append_left _ hy)
      · intro before' x' after' hsplit
        exact hreading before' x' _ (split_of_front hscript hsplit)
    have hlevel : ({ e with shifted := (readTimes before).length } : Eeprom).output now =
        e.lineBit (readTimes before).length := by
      rw [Eeprom.output, hp]
      rfl
    rw [hscript, Chip.reply_run, hbefore, hreceived before _ after hscript]
    exact congrArg (some ∘ Reply.bit) hlevel

end Reads

end SaveChip
