import SaveChip.Proofs.Chip.BusyWindow

/-! # It does not matter when a busy period is noticed

No timer ends a busy period: a chip notices the end when the line is next used.  Let a second chip
notice it earlier, because its clock comparison runs at other moments too or because the game polls
the line more often.  On a clock that does not go back the two stay the same chip but for the ready
flag, and the flag can only lag behind on the first one, after the deadline (`Ahead`).  Every request
is answered alike (`Ahead.respond`), and whatever uses the flag first brings it up to date.

So it is with whole runs, the additional comparisons and polls put in anywhere (`Ahead.watch`). -/

namespace SaveChip

/-- A reply without the contents of a snapshot, which show the ready flag. -/
def Reply.withoutSnapshot : Reply → Reply
  | .snapshot _ | .saved .. => .done
  | reply => reply

/-- What happens to a chip that is watched. -/
inductive Move where
  | ask (request : Request)
  /-- The clock is compared with the deadline. -/
  | settle
  /-- The line is read once more. -/
  | poll
deriving DecidableEq, Repr

/-- The requests of a run, without what is only done to watch the chip. -/
def Move.requests (moves : List (UInt64 × Move)) : List (UInt64 × Request) :=
  moves.filterMap fun x =>
    match x.2 with
    | .ask request => some (x.1, request)
    | .settle | .poll => none

namespace Chip

def settle (c : Chip) (now : UInt64) : Chip :=
  match c with
  | eeprom e => eeprom (e.settle now)
  | absent | sram _ => c

/-- The replies to the requests of a run, and the chip afterwards. -/
def watch (c : Chip) : List (UInt64 × Move) → List Reply × Chip
  | [] => ([], c)
  | (now, .ask request) :: rest =>
      let answer := c.respond now request
      let later := answer.2.watch rest
      (answer.1 :: later.1, later.2)
  | (now, .settle) :: rest => (c.settle now).watch rest
  | (now, .poll) :: rest => (c.clockOut now).watch rest

/-- The line is not polled while a block is on it. -/
def PollsBetweenReads (c : Chip) : List (UInt64 × Move) → Prop
  | [] => True
  | (now, .ask request) :: rest => (c.respond now request).2.PollsBetweenReads rest
  | (now, .settle) :: rest => (c.settle now).PollsBetweenReads rest
  | (now, .poll) :: rest =>
      (∀ e, c = eeprom e → e.phase ≠ .readData) ∧ (c.clockOut now).PollsBetweenReads rest

end Chip

/-! ### One chip ahead of another -/

namespace Eeprom

variable {a b : Eeprom} {now now' : UInt64}

/-- The same chip, or one that has noticed that its busy period is over. -/
def Ahead (now : UInt64) (a b : Eeprom) : Prop :=
  a = b ∨ a = { b with ready := true } ∧ b.deadline ≤ now

namespace Ahead

theorem mono (h : Ahead now a b) (hle : now ≤ now') : Ahead now' a b := by
  obtain rfl | ⟨rfl, hdeadline⟩ := h
  · exact .inl rfl
  · exact .inr ⟨rfl, UInt64.le_trans hdeadline hle⟩

/-- Comparing the clock with the deadline makes the two one. -/
theorem settle_eq (h : Ahead now a b) : a.settle now = b.settle now := by
  obtain rfl | ⟨rfl, hdeadline⟩ := h
  · rfl
  · rw [settle_due hdeadline, settle_due (e := { b with ready := true }) hdeadline]

theorem settle (h : Ahead now a b) : Ahead now (a.settle now) b := by
  rw [h.settle_eq]
  unfold Eeprom.settle
  split
  · exact .inr ⟨rfl, ‹_›⟩
  · exact .inl rfl

theorem phase_eq (h : Ahead now a b) : a.phase = b.phase := by
  obtain rfl | ⟨rfl, -⟩ := h
  · rfl
  · rfl

theorem output_eq (h : Ahead now a b) : a.output now = b.output now := by
  unfold Eeprom.output
  rw [h.phase_eq]
  cases b.phase with
  | idle => exact congrArg (fun e => e.ready) h.settle_eq
  | readData =>
      obtain rfl | ⟨rfl, -⟩ := h
      · rfl
      · rfl
  | writeData | invalid | writeAddress | readAddress => rfl

theorem shiftOut (h : Ahead now a b) : Ahead now a.shiftOut b.shiftOut := by
  obtain rfl | ⟨rfl, hdeadline⟩ := h
  · exact .inl rfl
  by_cases hlast : b.shifted + 1 = leadBits + blockBits
  · rw [shiftOut_last hlast, shiftOut_last (e := { b with ready := true }) hlast]
    exact .inl rfl
  · rw [shiftOut_more hlast, shiftOut_more (e := { b with ready := true }) hlast]
    exact .inr ⟨rfl, hdeadline⟩

theorem clockOut (h : Ahead now a b) : Ahead now (a.clockOut now) (b.clockOut now) := by
  unfold Eeprom.clockOut
  rw [h.phase_eq]
  cases b.phase with
  | idle => exact .inl h.settle_eq
  | readData => exact h.shiftOut
  | writeData | invalid | writeAddress | readAddress => exact h

/-- A poll is a comparison of the clock with the deadline, or nothing. -/
theorem poll (h : Ahead now a b) (hp : a.phase ≠ .readData) : Ahead now (a.clockOut now) b := by
  unfold Eeprom.clockOut
  cases hphase : a.phase with
  | idle => exact h.settle
  | readData => exact absurd hphase hp
  | writeData | invalid | writeAddress | readAddress => exact h

theorem decode_eq (h : Ahead now a b) (bit : Bool) : a.decode now bit = b.decode now bit := by
  unfold decode
  rw [h.settle_eq]

theorem shiftAddress (h : Ahead now a b) (reading bit : Bool) :
    Ahead now (a.shiftAddress reading bit) (b.shiftAddress reading bit) := by
  obtain rfl | ⟨rfl, hdeadline⟩ := h
  · exact .inl rfl
  right
  obtain hroom | hfull := Nat.lt_or_ge b.received (b.addressPhaseBits reading)
  · obtain hlast | hmore := Nat.eq_or_lt_of_le (Nat.succ_le_of_lt hroom)
    · rw [shiftAddress_last hlast, shiftAddress_last (e := { b with ready := true }) hlast]
      exact ⟨rfl, hdeadline⟩
    · rw [shiftAddress_more hmore, shiftAddress_more (e := { b with ready := true }) hmore]
      exact ⟨rfl, hdeadline⟩
  · rw [shiftAddress_full hfull, shiftAddress_full (e := { b with ready := true }) hfull]
    exact ⟨rfl, hdeadline⟩

theorem shiftIn (h : Ahead now a b) (bit : Bool) :
    Ahead now (a.shiftIn now bit) (b.shiftIn now bit) := by
  obtain rfl | ⟨rfl, hdeadline⟩ := h
  · exact .inl rfl
  by_cases hlast : b.shifted = blockBits
  · rw [shiftIn_last hlast, shiftIn_last (e := { b with ready := true }) hlast]
    exact .inl rfl
  · rw [shiftIn_more hlast, shiftIn_more (e := { b with ready := true }) hlast]
    exact .inr ⟨rfl, hdeadline⟩

theorem clockIn (h : Ahead now a b) (bit : Bool) :
    Ahead now (a.clockIn now bit) (b.clockIn now bit) := by
  unfold Eeprom.clockIn
  rw [h.phase_eq]
  cases b.phase with
  | idle => exact .inl (h.decode_eq bit)
  | writeAddress => exact h.shiftAddress false bit
  | readAddress => exact h.shiftAddress true bit
  | writeData => exact h.shiftIn bit
  | readData | invalid => exact h

end Ahead

end Eeprom

namespace Chip

variable {c d : Chip} {now now' start : UInt64}

/-- The same chip, or a serial one that has noticed that its busy period is over. -/
def Ahead (now : UInt64) (c d : Chip) : Prop :=
  c = d ∨ ∃ a b, c = eeprom a ∧ d = eeprom b ∧ Eeprom.Ahead now a b

namespace Ahead

theorem mono (h : Ahead now c d) (hle : now ≤ now') : Ahead now' c d := by
  obtain rfl | ⟨a, b, rfl, rfl, hab⟩ := h
  · exact .inl rfl
  · exact .inr ⟨a, b, rfl, rfl, hab.mono hle⟩

theorem settle (h : Ahead now c d) : Ahead now (c.settle now) d := by
  obtain rfl | ⟨a, b, rfl, rfl, hab⟩ := h
  · cases c with
    | absent | sram => exact .inl rfl
    | eeprom e => exact .inr ⟨_, e, rfl, rfl, Eeprom.Ahead.settle (.inl rfl)⟩
  · exact .inr ⟨_, b, rfl, rfl, hab.settle⟩

theorem poll (h : Ahead now c d) (hp : ∀ e, c = eeprom e → e.phase ≠ .readData) :
    Ahead now (c.clockOut now) d := by
  obtain rfl | ⟨a, b, rfl, rfl, hab⟩ := h
  · cases c with
    | absent | sram => exact .inl rfl
    | eeprom e => exact .inr ⟨_, e, rfl, rfl, Eeprom.Ahead.poll (.inl rfl) (hp e rfl)⟩
  · exact .inr ⟨_, b, rfl, rfl, hab.poll (hp a rfl)⟩

/-- A chip that is ahead answers as the other one does, and stays ahead. -/
theorem respond (h : Ahead now c d) (request : Request) :
    (c.respond now request).1.withoutSnapshot = (d.respond now request).1.withoutSnapshot ∧
      Ahead now (c.respond now request).2 (d.respond now request).2 := by
  obtain rfl | ⟨a, b, rfl, rfl, hab⟩ := h
  · exact ⟨rfl, .inl rfl⟩
  cases request with
  | readBit =>
      refine ⟨?_, .inr ⟨_, _, rfl, rfl, hab.clockOut⟩⟩
      simp only [Chip.respond, output, hab.output_eq]
  | writeBit value => exact ⟨rfl, .inr ⟨_, _, rfl, rfl, hab.clockIn _⟩⟩
  | restore bs =>
      obtain rfl | ⟨rfl, hdeadline⟩ := hab
      · exact ⟨rfl, .inl rfl⟩
      obtain ⟨houtcome, hloaded⟩ := restore_registers b { b.toRegisters with ready := true } bs
      refine ⟨congrArg (Reply.withoutSnapshot ∘ .restored) houtcome, ?_⟩
      by_cases h : ((eeprom b).restore bs).1 = .loaded
      · exact .inl (hloaded h)
      · exact .inr ⟨_, b, restore_eq_self (houtcome ▸ h), restore_eq_self h, .inr ⟨rfl, hdeadline⟩⟩
  | loadFrom buffer =>
      obtain rfl | ⟨rfl, hdeadline⟩ := hab
      · exact ⟨rfl, .inl rfl⟩
      obtain ⟨houtcome, hreader, hloaded⟩ :=
        load_registers b { b.toRegisters with ready := true } (.ofBuffer buffer)
      have hreply := congr (congrArg Reply.loaded houtcome) (congrArg Reader.position hreader)
      refine ⟨congrArg Reply.withoutSnapshot hreply, ?_⟩
      by_cases h : ((eeprom b).load (.ofBuffer buffer)).1 = .loaded
      · exact .inl (hloaded h)
      · exact .inr ⟨_, b, load_eq_self (houtcome ▸ h), load_eq_self h, .inr ⟨rfl, hdeadline⟩⟩
  | reset =>
      obtain rfl | ⟨rfl, -⟩ := hab
      · exact ⟨rfl, .inl rfl⟩
      · exact ⟨rfl, .inl rfl⟩
  | _ =>
      obtain rfl | ⟨rfl, hdeadline⟩ := hab
      · exact ⟨rfl, .inl rfl⟩
      · exact ⟨rfl, .inr ⟨_, _, rfl, rfl, .inr ⟨rfl, hdeadline⟩⟩⟩

theorem of_eeprom {b : Eeprom} (h : Ahead now c (eeprom b)) :
    ∃ a, c = eeprom a ∧ Eeprom.Ahead now a b := by
  obtain rfl | ⟨a, b', rfl, hb, hab⟩ := h
  · exact ⟨b, rfl, .inl rfl⟩
  · cases hb
    exact ⟨a, rfl, hab⟩

/-- Along a run the chip that is watched stays ahead of the one that is not. -/
theorem watch {moves : List (UInt64 × Move)} (h : Ahead start c d)
    (hstart : ∀ x ∈ moves, start ≤ x.1) (hclock : moves.Pairwise fun x y => x.1 ≤ y.1)
    (hpolls : c.PollsBetweenReads moves) :
    (c.watch moves).1.map Reply.withoutSnapshot =
        (d.run (Move.requests moves)).1.map Reply.withoutSnapshot ∧
      ∀ now, start ≤ now → (∀ x ∈ moves, x.1 ≤ now) →
        Ahead now (c.watch moves).2 (d.run (Move.requests moves)).2 := by
  induction moves generalizing c d start with
  | nil => exact ⟨rfl, fun now hle _ => h.mono hle⟩
  | cons x moves ih =>
      obtain ⟨time, move⟩ := x
      obtain ⟨hlater, hrest⟩ := List.pairwise_cons.mp hclock
      have hnow := h.mono (hstart _ List.mem_cons_self)
      cases move with
      | ask request =>
          obtain ⟨hreply, hnext⟩ := hnow.respond request
          obtain ⟨hreplies, hlast⟩ := ih hnext hlater hrest hpolls
          constructor
          · have hall := congr (congrArg List.cons hreply) hreplies
            exact hall
          · intro now _ hle
            obtain ⟨hthen, hends⟩ := List.forall_mem_cons.mp hle
            exact hlast now hthen hends
      | settle =>
          obtain ⟨hreplies, hlast⟩ := ih hnow.settle hlater hrest hpolls
          refine ⟨hreplies, ?_⟩
          intro now _ hle
          obtain ⟨hthen, hends⟩ := List.forall_mem_cons.mp hle
          exact hlast now hthen hends
      | poll =>
          obtain ⟨hreplies, hlast⟩ := ih (hnow.poll hpolls.1) hlater hrest hpolls.2
          refine ⟨hreplies, ?_⟩
          intro now _ hle
          obtain ⟨hthen, hends⟩ := List.forall_mem_cons.mp hle
          exact hlast now hthen hends

end Ahead

/-- **It does not matter when the end of a busy period is noticed.**  Watch a serial chip, in
whatever state, by comparing its deadline with the clock and by polling the line at any moments of a
run on a clock that does not go back.  The requests of the run are then answered as they are without
that, and the chip is the same in all but the ready flag; where the flag differs, it is down on the
chip that was not watched although the deadline has passed. -/
theorem settled_run (e : Eeprom) {moves : List (UInt64 × Move)}
    (hclock : moves.Pairwise fun x y => x.1 ≤ y.1)
    (hpolls : (eeprom e).PollsBetweenReads moves) :
    ∃ watched left : Eeprom,
      ((eeprom e).watch moves).2 = eeprom watched ∧
      ((eeprom e).run (Move.requests moves)).2 = eeprom left ∧
      ((eeprom e).watch moves).1.map Reply.withoutSnapshot =
        ((eeprom e).run (Move.requests moves)).1.map Reply.withoutSnapshot ∧
      { watched with ready := left.ready } = left ∧
      (watched.ready ≠ left.ready → left.ready = false ∧
        ∀ now, (∀ x ∈ moves, x.1 ≤ now) → left.deadline ≤ now) := by
  have hstart : Ahead 0 (eeprom e) (eeprom e) := .inl rfl
  obtain ⟨hreplies, hlast⟩ := hstart.watch (fun _ _ => UInt64.zero_le) hclock hpolls
  have hkind : ((eeprom e).run (Move.requests moves)).2.kind = .eeprom e.capacity := kind_run _ _
  cases hleft : ((eeprom e).run (Move.requests moves)).2 with
  | absent => rw [hleft] at hkind; cases hkind
  | sram s => rw [hleft] at hkind; cases hkind
  | eeprom left =>
      rw [hleft] at hlast
      have hend : ∀ x ∈ moves, x.1 ≤ 0xFFFFFFFFFFFFFFFF := by
        intro x _
        rw [UInt64.le_iff_toNat_le]
        exact Nat.le_of_lt_succ x.1.toNat_lt
      obtain ⟨watched, hwatched, hahead⟩ := (hlast _ UInt64.zero_le hend).of_eeprom
      refine ⟨watched, left, hwatched, rfl, hreplies, ?_, ?_⟩
      · obtain rfl | ⟨rfl, -⟩ := hahead
        · rfl
        · rfl
      · intro hne
        constructor
        · obtain rfl | ⟨rfl, -⟩ := hahead
          · exact absurd rfl hne
          · rw [Bool.eq_false_iff]
            intro hready
            exact hne hready.symm
        · intro now hle
          obtain ⟨watched', hsame, hnow⟩ := (hlast now UInt64.zero_le hle).of_eeprom
          cases hwatched.symm.trans hsame
          obtain rfl | ⟨-, hdeadline⟩ := hnow
          · exact absurd rfl hne
          · exact hdeadline

/-- A poll before the deadline finds nothing new; a comparison after it leaves the two chips apart
by the ready flag, and a debugger who looks at either of them finds the same. -/
theorem settled_run_lagging :
    let busy : Eeprom := { Eeprom.fresh .small with ready := false, deadline := 108375 }
    let moves : List (UInt64 × Move) :=
      [(108374, .poll), (108374, .ask .readBit), (108375, .settle), (108376, .ask (.peek 0))]
    let watched := (eeprom busy).watch moves
    let left := (eeprom busy).run (Move.requests moves)
    watched.1 = [.value 0, .value 0xFF] ∧ left.1 = [.value 0, .value 0xFF] ∧
      watched.2 = eeprom { busy with ready := true } ∧ left.2 = eeprom busy ∧
      busy.deadline ≤ 108376 := by
  intro busy moves watched left
  have hclock : moves.Pairwise fun x y => x.1 ≤ y.1 := by decide
  have hpolls : (eeprom busy).PollsBetweenReads moves := by
    constructor
    · intro e he
      cases he
      decide
    · trivial
  have hleft : left.2 = eeprom busy := rfl
  have hwatched : watched.2 = eeprom { busy with ready := true } := rfl
  obtain ⟨a, b, ha, hb, -, -, hlag⟩ := settled_run busy hclock hpolls
  cases hleft.symm.trans hb
  cases hwatched.symm.trans ha
  exact ⟨rfl, rfl, hwatched, hleft, (hlag (by decide)).2 108376 (by decide)⟩

end Chip

end SaveChip
