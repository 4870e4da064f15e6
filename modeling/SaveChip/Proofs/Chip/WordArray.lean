import SaveChip.Proofs.Chip.Parsing

/-! # The serial chip is an array of words

A game works with the chip in whole transactions: it writes a word, it reads one, it sends the
command that does nothing, or it resets the chip.  Its clock may show anything at each request of a
transaction, as long as the chip listens when the first bit of one arrives.

To such a game the chip is an array of words of 64 bits.  One transaction is one step on the array
(`Transaction.run_transaction`), and by induction a session is a series of steps
(`Session.run_script`).  So a read answers with the word last written to its block, or with what the
block held at the beginning, and at the end every block holds the bytes of its word
(`session_reached`). -/

namespace SaveChip

/-- Sends a bit. -/
def Request.bit (b : Bool) : Request := .writeBit b.toUInt8

/-- A bit on the line. -/
def Reply.bit (b : Bool) : Reply := .value b.toUInt8.toUInt32

/-- Requests, or bits, each at the time that a clock shows. -/
def timed {α : Type} (clock : Nat → UInt64) : List α → List (UInt64 × α)
  | [] => []
  | x :: xs => (clock 0, x) :: timed (fun n => clock (n + 1)) xs

inductive Transaction where
  | write (address : Nat) (value : UInt64) (terminator : Bool)
  | read (address : Nat) (trailing : Bool)
  | null
  | reset
deriving DecidableEq, Repr

namespace Transaction

/-! ### Transactions on the line -/

/-- The bits that are sent. -/
def bits (c : Capacity) : Transaction → List Bool
  | write address value terminator =>
      true :: false ::
        (msbFirst c.addressBits address ++ (msbFirst 64 value.toNat ++ [terminator]))
  | read address trailing => true :: true :: (msbFirst c.addressBits address ++ [trailing])
  | null => [false, false]
  | reset => []

def requests (c : Capacity) (t : Transaction) : List Request :=
  match t with
  | read .. => (t.bits c).map .bit ++ List.replicate 68 .readBit
  | reset => [.reset]
  | write .. | null => (t.bits c).map .bit

def script (c : Capacity) (t : Transaction) (clock : Nat → UInt64) : List (UInt64 × Request) :=
  timed clock (t.requests c)

/-! ### Transactions on an array -/

/-- The word that was last written to a block; the past begins with the latest transaction. -/
def latest? (c : Capacity) (block : Nat) : List Transaction → Option UInt64
  | [] => none
  | write address value _ :: past =>
      if c.blockOf address = block then some value else latest? c block past
  | read .. :: past | null :: past | reset :: past => latest? c block past

/-- The word in a block after a series of transactions. -/
def wordAfter (c : Capacity) (initial : Nat → UInt64) (past : List Transaction) (block : Nat) :
    UInt64 :=
  (latest? c block past).getD (initial block)

/-- What is answered to a transaction if the blocks hold the given words. -/
def replies (c : Capacity) (words : Nat → UInt64) (t : Transaction) : List Reply :=
  match t with
  | read address _ =>
      List.replicate (t.bits c).length .done ++
        (List.replicate 4 false ++ msbFirst 64 (words (c.blockOf address)).toNat).map .bit
  | write .. | null | reset => List.replicate (t.requests c).length .done

/-- What is answered to a series of transactions, after those of the past. -/
def allReplies (c : Capacity) (initial : Nat → UInt64) (past : List Transaction) :
    List Transaction → List Reply
  | [] => []
  | t :: ts => t.replies c (wordAfter c initial past) ++ allReplies c initial (t :: past) ts

end Transaction

/-- Transactions, each with the clock that the chip reads at its requests. -/
abbrev Session := List (Transaction × (Nat → UInt64))

namespace Session

def script (c : Capacity) (session : Session) : List (UInt64 × Request) :=
  session.flatMap fun x => x.1.script c x.2

/-- The chip listens when the first bit of a transaction arrives. -/
def Admitted (c : Capacity) (chip : Chip) : Session → Prop
  | [] => True
  | (t, clock) :: rest =>
      (t ≠ .reset → ∃ e, chip = .eeprom e ∧ e.Listening (clock 0)) ∧
        Admitted c (chip.run (t.script c clock)).2 rest

end Session

/-! ### Series of requests -/

section

variable {α β : Type} {clock : Nat → UInt64}

theorem timed_append (clock : Nat → UInt64) (xs ys : List α) :
    timed clock (xs ++ ys) = timed clock xs ++ timed (fun n => clock (n + xs.length)) ys := by
  induction xs generalizing clock with
  | nil => rfl
  | cons x xs ih =>
      rw [List.cons_append, timed, ih, timed, List.cons_append, List.length_cons]
      rfl

theorem timed_map (clock : Nat → UInt64) (f : α → β) (xs : List α) :
    timed clock (xs.map f) = (timed clock xs).map fun x => (x.1, f x.2) := by
  induction xs generalizing clock with
  | nil => rfl
  | cons x xs ih => rw [List.map_cons, timed, ih, timed, List.map_cons]

@[simp] theorem map_snd_timed (clock : Nat → UInt64) (xs : List α) :
    (timed clock xs).map Prod.snd = xs := by
  induction xs generalizing clock with
  | nil => rfl
  | cons x xs ih => rw [timed, List.map_cons, ih]

@[simp] theorem length_timed (clock : Nat → UInt64) (xs : List α) :
    (timed clock xs).length = xs.length := by
  rw [← List.length_map Prod.snd, map_snd_timed]

theorem timed_replicate (clock : Nat → UInt64) (n : Nat) (x : α) :
    timed clock (List.replicate n x) = ((List.range n).map clock).map (·, x) := by
  induction n generalizing clock with
  | zero => rfl
  | succ n ih =>
      rw [List.replicate_succ, timed, ih, List.range_succ_eq_map]
      simp

end

namespace Eeprom

theorem bitAt_toUInt8 (b : Bool) : bitAt b.toUInt8 0 = b := by
  cases b <;> rfl

theorem run_send (e : Eeprom) (sent : List (UInt64 × Bool)) :
    (Chip.eeprom e).run (sent.map fun x => (x.1, .bit x.2)) =
      (List.replicate sent.length .done, .eeprom (e.send sent)) := by
  have hrun := Chip.run_writeBits e (sent.map fun x => (x.1, x.2.toUInt8))
  simpa [Function.comp_def, Request.bit, bitAt_toUInt8] using hrun

theorem run_receive (e : Eeprom) (times : List UInt64) :
    (Chip.eeprom e).run (times.map (·, .readBit)) =
      ((e.receive times).1.map .bit, .eeprom (e.receive times).2) := by
  induction times generalizing e with
  | nil => rfl
  | cons now times ih =>
      have hstep : (Chip.eeprom e).respond now .readBit =
          (.bit (e.output now), .eeprom (e.clockOut now)) := rfl
      rw [List.map_cons, Chip.run, hstep, ih, receive, List.map_cons]

end Eeprom

/-! ### One transaction -/

namespace Transaction

variable {e : Eeprom} {clock : Nat → UInt64}

/-- One more transaction changes the word that the past has left. -/
theorem wordAfter_cons {c : Capacity} {initial words : Nat → UInt64} {past : List Transaction}
    {block : Nat} (h : words block = wordAfter c initial past block) (t : Transaction) :
    wordAfter c initial (t :: past) block = wordAfter c words [t] block := by
  cases t with
  | write address value terminator =>
      simp only [wordAfter, latest?, h]
      split <;> rfl
  | read | null | reset => exact h.symm

theorem replies_congr {c : Capacity} {words words' : Nat → UInt64}
    (h : ∀ block, 8 * block + 8 ≤ c.bytes → words block = words' block) (t : Transaction) :
    t.replies c words = t.replies c words' := by
  cases t with
  | read address trailing => rw [replies, replies, h _ (c.blockOf_fits address)]
  | write | null | reset => rfl

theorem run_bits (e : Eeprom) (clock : Nat → UInt64) (bits : List Bool) :
    (Chip.eeprom e).run (timed clock (bits.map .bit)) =
      (List.replicate bits.length .done, .eeprom (e.send (timed clock bits))) := by
  rw [timed_map, Eeprom.run_send, length_timed]

/-- Sending bits and reading the line after them, if what is read does not depend on the time. -/
theorem run_bits_reads {e' : Eeprom} {bits data : List Bool} {n : Nat}
    (h : ∀ times : List UInt64, times.length = n →
      (e.send (timed clock bits)).receive times = (data, e')) :
    (Chip.eeprom e).run (timed clock (bits.map .bit ++ List.replicate n .readBit)) =
      (List.replicate bits.length .done ++ data.map .bit, .eeprom e') := by
  rw [timed_append, Chip.run_append, run_bits, timed_replicate, Eeprom.run_receive, h]
  rw [List.length_map, List.length_range]

theorem timed_frame (clock : Nat → UInt64) (b b' : Bool) (address rest : List Bool) :
    ∃ a r : List (UInt64 × Bool),
      timed clock (b :: b' :: (address ++ rest)) = (clock 0, b) :: (clock 1, b') :: (a ++ r) ∧
        a.map Prod.snd = address ∧ r.map Prod.snd = rest := by
  refine ⟨timed (fun n => clock (n + 1 + 1)) address,
    timed (fun n => clock (n + address.length + 1 + 1)) rest, ?_, ?_, ?_⟩
  · rw [timed, timed, timed_append]
  · exact map_snd_timed ..
  · exact map_snd_timed ..

theorem run_write (h : e.Sound) (hr : e.Resting) (hl : e.Listening (clock 0)) (address : Nat)
    (value : UInt64) (terminator : Bool) :
    ∃ e' : Eeprom,
      (Chip.eeprom e).run ((write address value terminator).script e.capacity clock) =
        ((write address value terminator).replies e.capacity e.storage.word, .eeprom e') ∧
      e'.Resting ∧ e'.capacity = e.capacity ∧
      e'.storage = e.storage.setBits (e.capacity.blockOf address) 0 (msbFirst 64 value.toNat) := by
  refine ⟨e.send (timed clock ((write address value terminator).bits e.capacity)), ?_, ?_⟩
  · rw [script, requests, run_bits, replies, requests, List.length_map]
  · obtain ⟨a, r, hbits, ha, hrest⟩ := timed_frame clock true false
      (msbFirst e.capacity.addressBits address) (msbFirst 64 value.toNat ++ [terminator])
    obtain ⟨d, l, rfl, hd, hlast⟩ := List.map_eq_append_iff.mp hrest
    obtain ⟨⟨now, b⟩, rfl, rfl⟩ := List.map_eq_singleton_iff.mp hlast
    have haddress : a.length = e.capacity.addressBits := by
      rw [← List.length_map Prod.snd, ha, length_msbFirst]
    have hdata : d.length = blockBits := by
      rw [← List.length_map Prod.snd, hd, length_msbFirst, blockBits]
    rw [bits, hbits, Eeprom.send_write hr (hr.shifted h) hl (clock 1) haddress hdata, ha, hd,
      Capacity.blockOf_shiftBits]
    exact ⟨⟨rfl, rfl⟩, rfl, rfl⟩

theorem run_read (h : e.Sound) (hr : e.Resting) (hl : e.Listening (clock 0)) (address : Nat)
    (trailing : Bool) :
    ∃ e' : Eeprom,
      (Chip.eeprom e).run ((read address trailing).script e.capacity clock) =
        ((read address trailing).replies e.capacity e.storage.word, .eeprom e') ∧
      e'.Resting ∧ e'.capacity = e.capacity ∧ e'.storage = e.storage := by
  obtain ⟨a, r, hbits, ha, hrest⟩ := timed_frame clock true true
    (msbFirst e.capacity.addressBits address) [trailing]
  obtain ⟨⟨now, b⟩, rfl, rfl⟩ := List.map_eq_singleton_iff.mp hrest
  have haddress : a.length = e.capacity.addressBits := by
    rw [← List.length_map Prod.snd, ha, length_msbFirst]
  have hfits := e.capacity.blockOf_fits address
  rw [← h.size] at hfits
  have hreceived : ∀ times : List UInt64, times.length = 68 →
      (e.send (timed clock ((read address b).bits e.capacity))).receive times =
        (List.replicate 4 false ++
            msbFirst 64 (e.storage.word (e.capacity.blockOf address)).toNat,
          { e with
            ready := true
            received := 0
            shifted := 0
            address := UInt32.ofNat (e.capacity.blockOf address)
            phase := .idle
            command := 3 }) := by
    intro times htimes
    rw [bits, hbits, Eeprom.receive_read hr (hr.shifted h) hl (clock 1) haddress now b htimes, ha,
      Capacity.blockOf_shiftBits, show blockBits = 64 from rfl, Storage.map_bit hfits]
    rfl
  exact ⟨_, run_bits_reads hreceived, ⟨rfl, rfl⟩, rfl, rfl⟩

theorem run_transaction (h : e.Sound) (hr : e.Resting) (t : Transaction)
    (hl : t ≠ .reset → e.Listening (clock 0)) :
    ∃ e' : Eeprom,
      (Chip.eeprom e).run (t.script e.capacity clock) =
        (t.replies e.capacity e.storage.word, .eeprom e') ∧
      e'.Resting ∧ e'.capacity = e.capacity ∧
      ∀ block, 8 * block + 8 ≤ e.capacity.bytes →
        e'.storage.word block = wordAfter e.capacity e.storage.word [t] block := by
  cases t with
  | write address value terminator =>
      obtain ⟨e', hrun, hrest, hcapacity, hstorage⟩ :=
        run_write h hr (hl nofun) address value terminator
      refine ⟨e', hrun, hrest, hcapacity, fun block hblock => ?_⟩
      have hfits := e.capacity.blockOf_fits address
      rw [← h.size] at hfits hblock
      rw [hstorage, Storage.word_setBits hfits hblock]
      simp only [wordAfter, latest?, eq_comm]
      split <;> rfl
  | read address trailing =>
      obtain ⟨e', hrun, hrest, hcapacity, hstorage⟩ := run_read h hr (hl nofun) address trailing
      refine ⟨e', hrun, hrest, hcapacity, fun block _ => ?_⟩
      rw [hstorage]
      rfl
  | null =>
      have hsent : e.send (timed clock (null.bits e.capacity)) =
          { e with ready := true, address := 0, received := 0, command := 0, phase := .idle } :=
        Eeprom.send_null hr (hl nofun) (clock 1)
      refine ⟨e.send (timed clock (null.bits e.capacity)), ?_, ?_⟩
      · rw [script, requests, run_bits]
        rfl
      · rw [hsent]
        exact ⟨⟨rfl, rfl⟩, rfl, fun _ _ => rfl⟩
  | reset => exact ⟨e.reset, rfl, ⟨rfl, rfl⟩, rfl, fun block _ => rfl⟩

end Transaction

/-! ### Sessions -/

namespace Session

variable {e : Eeprom}

/-- A session that follows other transactions: the chip holds the words that those have left. -/
theorem run_script {c : Capacity} {initial : Nat → UInt64} {past : List Transaction}
    (h : e.Sound) (hr : e.Resting) (hc : e.capacity = c)
    (hwords : ∀ block, 8 * block + 8 ≤ c.bytes →
      e.storage.word block = Transaction.wordAfter c initial past block)
    {session : Session} (hadmitted : session.Admitted c (.eeprom e)) :
    ∃ e' : Eeprom,
      (Chip.eeprom e).run (session.script c) =
        (Transaction.allReplies c initial past (session.map Prod.fst), .eeprom e') ∧
      e'.storage.size = c.bytes ∧
      ∀ block, 8 * block + 8 ≤ c.bytes →
        e'.storage.word block =
          Transaction.wordAfter c initial ((session.map Prod.fst).reverse ++ past) block := by
  induction session generalizing e past with
  | nil => exact ⟨e, rfl, hc ▸ h.size, hwords⟩
  | cons x session ih =>
      obtain ⟨t, clock⟩ := x
      obtain ⟨hlistening, hlater⟩ := hadmitted
      have hl : t ≠ .reset → e.Listening (clock 0) := by
        intro ht
        obtain ⟨e₀, he₀, hl⟩ := hlistening ht
        cases he₀
        exact hl
      subst hc
      -- the transaction leaves a sound chip at rest, with the words of a longer past
      obtain ⟨e₁, hrun, hr₁, hc₁, hwords₁⟩ := t.run_transaction h hr hl
      have h₁ : e₁.Sound := by
        have hsound := Chip.Sound.run (c := .eeprom e) h (t.script e.capacity clock)
        rwa [hrun] at hsound
      rw [hrun] at hlater
      have hpast : ∀ block, 8 * block + 8 ≤ e.capacity.bytes → e₁.storage.word block =
          Transaction.wordAfter e.capacity initial (t :: past) block := by
        intro block hblock
        rw [hwords₁ block hblock, Transaction.wordAfter_cons (hwords block hblock)]
      obtain ⟨e₂, hrest, hsize, hwords₂⟩ := ih h₁ hr₁ hc₁ hpast hlater
      refine ⟨e₂, ?_, hsize, ?_⟩
      · rw [script, List.flatMap_cons, Chip.run_append, hrun]
        dsimp only
        rw [← script, hrest, Transaction.replies_congr hwords t]
        rfl
      · intro block hblock
        rw [hwords₂ block hblock, List.map_cons, List.reverse_cons, List.append_assoc]
        rfl

end Session

namespace Chip

/-- **To a game that works in whole transactions the serial chip is an array of words**: from any
chip at rest that occurs, every read answers with the word last written to its block, or with the
one the block held at first, and at the end each block holds the bytes of its word. -/
theorem session_reached {c : Capacity} {history : List (UInt64 × Request)} {e : Eeprom}
    (he : reached (.eeprom c) history = eeprom e) (hphase : e.phase = .idle)
    (hreceived : e.received = 0) {session : Session} (hadmitted : session.Admitted c (eeprom e)) :
    ((eeprom e).run (session.script c)).1 =
        Transaction.allReplies c e.storage.word [] (session.map Prod.fst) ∧
      ∃ bs, ((eeprom e).run (session.script c)).2.contents? = some bs ∧ bs.length = c.bytes ∧
        ∀ block < c.bytes / 8,
          (bs.drop (8 * block)).take 8 = LittleEndian.encode 8
            (Transaction.wordAfter c e.storage.word (session.map Prod.fst).reverse block).toNat := by
  have hsound := sound_reached (.eeprom c) history
  have hkind := kind_reached (.eeprom c) history
  rw [he] at hsound hkind
  have hinitial : ∀ block, 8 * block + 8 ≤ c.bytes →
      e.storage.word block = Transaction.wordAfter c e.storage.word [] block := fun _ _ => rfl
  obtain ⟨e', hrun, hsize, hwords⟩ := Session.run_script hsound ⟨hphase, hreceived⟩
    (Kind.eeprom.inj hkind) hinitial hadmitted
  rw [hrun]
  refine ⟨rfl, e'.storage.toList, rfl, hsize, ?_⟩
  intro block hblock
  have hfits : 8 * block + 8 ≤ c.bytes := by omega
  have hword := hwords block hfits
  rw [List.append_nil] at hword
  rw [← hword]
  exact Storage.blockBytes_eq (by rw [hsize]; exact hfits)

/-- A word that goes out under one address comes back under another one of the same block, once
the chip has had its time. -/
theorem session_reached_aliased :
    let session : Session :=
      [(.write 0x401 0x0123456789ABCDEF true, fun _ => 0),
        (.read 0x001 false, fun _ => 0xFFFFFFFFFFFFFFFF)]
    ((fresh (.eeprom .large)).run (session.script .large)).1 =
      List.replicate 98 .done ++
        (List.replicate 4 false ++ msbFirst 64 0x0123456789ABCDEF).map .bit := by
  intro session
  have hfresh : reached (.eeprom .large) [] = eeprom (.fresh .large) := rfl
  have hadmitted : session.Admitted .large (eeprom (.fresh .large)) := by
    refine ⟨fun _ => ⟨_, rfl, .inl rfl⟩, fun _ => ?_, trivial⟩
    obtain ⟨e, hrun, -⟩ := @Transaction.run_transaction (.fresh .large) (fun _ => 0)
      (Eeprom.sound_fresh .large) ⟨rfl, rfl⟩ (.write 0x401 0x0123456789ABCDEF true)
      (fun _ => .inl rfl)
    refine ⟨e, ?_, .inr ?_⟩
    · exact congrArg Prod.snd hrun
    · rw [UInt64.le_iff_toNat_le]
      exact Nat.le_of_lt_succ e.deadline.toNat_lt
  exact (session_reached hfresh rfl rfl hadmitted).1

end Chip

end SaveChip
