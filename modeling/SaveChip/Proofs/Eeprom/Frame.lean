import SaveChip.Proofs.Eeprom.Admissible
import SaveChip.Proofs.Storage.Word

/-! # Frames on the line

A frame is the series of bits that makes up one command with all that belongs to it.  `send` and
`receive` are what becomes of the chip over a series of bits, each at a time of its own.  For every
part of a frame there is one theorem that says how far the chip has come after any number of bits,
and the parts compose to whole frames: `send_write`, `send_read` with `receive_block`, and
`send_null`.

The address register always makes room for the next bit, so within an address phase it holds twice
the number received so far (`send_address`).  The last step takes the room back and keeps the bits
that select a block (`block_eq`). -/

namespace SaveChip

/-- The block that an address names. -/
def Capacity.blockOf (c : Capacity) (address : Nat) : Nat := address &&& c.addressMask.toNat

theorem Capacity.blockOf_eq (c : Capacity) (address : Nat) :
    c.blockOf address = address % (c.addressMask.toNat + 1) := by
  cases c with
  | small => exact Nat.and_two_pow_sub_one_eq_mod address 6
  | large => exact Nat.and_two_pow_sub_one_eq_mod address 10

theorem Capacity.blockOf_le (c : Capacity) (address : Nat) :
    c.blockOf address ≤ c.addressMask.toNat := Nat.and_le_right

theorem Capacity.blockOf_fits (c : Capacity) (address : Nat) :
    8 * c.blockOf address + 8 ≤ c.bytes := by
  have hle := c.blockOf_le address
  have hblocks := c.blocks_fit
  omega

theorem Capacity.blockOf_shiftBits (c : Capacity) (address : Nat) :
    c.blockOf (shiftBits 0 (msbFirst c.addressBits address)) = c.blockOf address := by
  apply Nat.eq_of_testBit_eq
  intro i
  rw [blockOf, blockOf, Nat.testBit_and, Nat.testBit_and, testBit_shiftBits]
  by_cases hi : i < c.addressBits
  · rw [decide_eq_true hi, Bool.true_and]
  · have hmask : c.addressMask.toNat.testBit i = false := by
      cases c with
      | small => exact (Nat.testBit_two_pow_sub_one 6 i).trans (decide_eq_false hi)
      | large =>
          have hi' : ¬i < 10 := fun hlt => hi (Nat.lt_trans hlt (by decide))
          exact (Nat.testBit_two_pow_sub_one 10 i).trans (decide_eq_false hi')
    rw [hmask, Bool.and_false, Bool.and_false]

namespace Eeprom

variable {e : Eeprom}

/-- The chip after a series of bits. -/
def send (e : Eeprom) : List (UInt64 × Bool) → Eeprom
  | [] => e
  | (now, bit) :: rest => (e.clockIn now bit).send rest

/-- The bits that the game reads at a series of times, and the chip afterwards. -/
def receive (e : Eeprom) : List UInt64 → List Bool × Eeprom
  | [] => ([], e)
  | now :: rest =>
      let later := (e.clockOut now).receive rest
      (e.output now :: later.1, later.2)

theorem send_append (e : Eeprom) (xs ys : List (UInt64 × Bool)) :
    e.send (xs ++ ys) = (e.send xs).send ys := by
  induction xs generalizing e with
  | nil => rfl
  | cons x xs ih => exact ih _

/-- The chip waits for the first bit of a command. -/
structure Resting (e : Eeprom) : Prop where
  phase : e.phase = .idle
  received : e.received = 0

theorem Resting.shifted (hr : e.Resting) (h : e.Sound) : e.shifted = 0 :=
  (h.inPhase hr.phase).2.1

/-- The chip takes a command bit: it is ready, or it notices now that it is. -/
def Listening (e : Eeprom) (now : UInt64) : Prop := e.ready = true ∨ e.deadline ≤ now

/-! ### Commands -/

theorem clockIn_first (h : e.Resting) {now : UInt64} (hl : e.Listening now) (bit : Bool) :
    e.clockIn now bit =
      { e with ready := true, address := 0, received := 1, command := bit.toNat } := by
  have hready : (e.ready || decide (e.deadline ≤ now)) = true := by
    obtain hready | hdeadline := hl
    · rw [hready, Bool.true_or]
    · rw [decide_eq_true hdeadline, Bool.or_true]
  rw [clockIn, h.phase]
  simp only [decode, settle_eq, hready, h.received, h.phase]
  rfl

theorem clockIn_second (hp : e.phase = .idle) (hr : e.received = 1) (hready : e.ready = true)
    (now : UInt64) (bit : Bool) :
    e.clockIn now bit =
      { e with
        address := 0
        received := 0
        command := 2 * e.command + bit.toNat
        phase := .ofCommand (2 * e.command + bit.toNat) } := by
  rw [clockIn, hp]
  simp only [decode, settle_eq, hready, hr, Bool.true_or]
  rfl

/-- Two bits open the phase of their command. -/
theorem send_command (h : e.Resting) {t : UInt64} (hl : e.Listening t) (t' : UInt64)
    (b b' : Bool) :
    e.send [(t, b), (t', b')] =
      { e with
        ready := true
        address := 0
        received := 0
        command := 2 * b.toNat + b'.toNat
        phase := .ofCommand (2 * b.toNat + b'.toNat) } := by
  rw [send, clockIn_first h hl]
  exact clockIn_second
    (e := { e with ready := true, address := 0, received := 1, command := b.toNat })
    h.phase rfl rfl t' b'

/-! ### Addresses -/

theorem double_or_shiftLeft (n : Nat) (b : Bool) :
    (UInt32.ofNat (2 * n) ||| b.toUInt32) <<< 1 = UInt32.ofNat (2 * (2 * n + b.toNat)) := by
  have hbit : b.toUInt32 = UInt32.ofNat b.toNat := by cases b <;> rfl
  rw [hbit, ← UInt32.ofNat_or, double_or]
  apply UInt32.toNat_inj.mp
  simp [Nat.shiftLeft_eq]
  omega

theorem double_shiftRight_and (c : Capacity) (n : Nat) :
    (UInt32.ofNat (2 * n) >>> 1) &&& c.addressMask = UInt32.ofNat (c.blockOf n) := by
  have hhalf : (UInt32.ofNat (2 * n) >>> 1).toNat = n % 0x80000000 := by
    simp [Nat.shiftRight_eq_div_pow]
    omega
  apply UInt32.toNat_inj.mp
  rw [UInt32.toNat_and, hhalf]
  change c.blockOf (n % 0x80000000) = _
  rw [c.blockOf_eq, c.blockOf_eq, UInt32.toNat_ofNat']
  cases c <;> simp [Capacity.addressMask] <;> omega

theorem block_eq (c : Capacity) (n : Nat) : (UInt32.ofNat (c.blockOf n)).toNat = c.blockOf n := by
  have hle := c.blockOf_le n
  have hmask : c.addressMask.toNat ≤ 0x3FF := by cases c <;> decide
  exact UInt32.toNat_ofNat_of_lt' (by simp only [UInt32.size]; omega)

theorem clockIn_address {reading : Bool} (hp : e.phase = addressPhase reading) (now : UInt64)
    (bit : Bool) : e.clockIn now bit = e.shiftAddress reading bit := by
  unfold clockIn
  rw [hp]
  cases reading <;> rfl

/-- Within an address phase the register holds twice the number received so far. -/
theorem send_address {reading : Bool} {n : Nat} (hp : e.phase = addressPhase reading)
    (ha : e.address = UInt32.ofNat (2 * n)) (sent : List (UInt64 × Bool))
    (h : e.received + sent.length < e.addressPhaseBits reading) :
    e.send sent =
      { e with
        address := UInt32.ofNat (2 * shiftBits n (sent.map Prod.snd))
        received := e.received + sent.length } := by
  induction sent generalizing e n with
  | nil =>
      rw [send, List.map_nil, shiftBits, List.foldl_nil, ← ha]
      rfl
  | cons x sent ih =>
      rw [List.length_cons] at h
      -- a read has one bit that is not shifted, but that is the last one of the phase
      have hroom : e.received < e.capacity.addressBits := by
        have hone : reading.toNat ≤ 1 := Bool.toNat_le reading
        unfold addressPhaseBits at h
        omega
      have hstep : e.clockIn x.1 x.2 =
          { e with
            address := UInt32.ofNat (2 * (2 * n + x.2.toNat))
            received := e.received + 1 } := by
        rw [clockIn_address hp, shiftAddress_more (by omega), shiftedAddress, if_pos hroom, ha,
          double_or_shiftLeft]
      have hrest := ih (n := 2 * n + x.2.toNat)
        (e := { e with
          address := UInt32.ofNat (2 * (2 * n + x.2.toNat))
          received := e.received + 1 })
        hp rfl (by simp only [addressPhaseBits] at h ⊢; omega)
      rw [send, hstep, hrest, List.length_cons, ← Nat.add_right_comm]
      rfl

theorem clockIn_lastAddress {n : Nat} (hp : e.phase = .writeAddress)
    (hr : e.received + 1 = e.capacity.addressBits) (ha : e.address = UInt32.ofNat (2 * n))
    (now : UInt64) (bit : Bool) :
    e.clockIn now bit =
      { e with
        address := UInt32.ofNat (e.capacity.blockOf (2 * n + bit.toNat))
        received := 0
        phase := .writeData } := by
  have hlast : e.received + 1 = e.addressPhaseBits false := hr
  rw [clockIn_address (show e.phase = addressPhase false from hp), shiftAddress_last hlast,
    finalAddress, shiftedAddress, if_pos (by omega), ha, double_or_shiftLeft,
    double_shiftRight_and]
  rfl

theorem clockIn_trailing {n : Nat} (hp : e.phase = .readAddress)
    (hr : e.received = e.capacity.addressBits) (ha : e.address = UInt32.ofNat (2 * n))
    (now : UInt64) (bit : Bool) :
    e.clockIn now bit =
      { e with
        address := UInt32.ofNat (e.capacity.blockOf n)
        received := 0
        phase := .readData } := by
  have hlast : e.received + 1 = e.addressPhaseBits true := congrArg Nat.succ hr
  rw [clockIn_address (show e.phase = addressPhase true from hp), shiftAddress_last hlast,
    finalAddress, shiftedAddress, if_neg (by omega), ha, double_shiftRight_and]
  rfl

theorem send_writeAddress (hp : e.phase = .writeAddress) (hr : e.received = 0)
    (ha : e.address = 0) {sent : List (UInt64 × Bool)}
    (hlen : sent.length = e.capacity.addressBits) :
    e.send sent =
      { e with
        address := UInt32.ofNat (e.capacity.blockOf (shiftBits 0 (sent.map Prod.snd)))
        received := 0
        phase := .writeData } := by
  obtain rfl | ⟨front, x, rfl⟩ := List.eq_nil_or_concat sent
  · cases hc : e.capacity <;> rw [hc] at hlen <;> cases hlen
  · rw [List.concat_eq_append] at hlen ⊢
    rw [List.length_append, List.length_singleton] at hlen
    have hfront := send_address (n := 0) (show e.phase = addressPhase false from hp) ha front
      (by rw [hr, addressPhaseBits, Bool.toNat_false]; omega)
    rw [send_append, hfront, send, send, List.map_append, List.map_singleton, shiftBits_append]
    exact clockIn_lastAddress (n := shiftBits 0 (front.map Prod.snd))
      (e := { e with
        address := UInt32.ofNat (2 * shiftBits 0 (front.map Prod.snd))
        received := e.received + front.length })
      hp (by dsimp only; omega) rfl x.1 x.2

theorem send_readAddress (hp : e.phase = .readAddress) (hr : e.received = 0)
    (ha : e.address = 0) {sent : List (UInt64 × Bool)}
    (hlen : sent.length = e.capacity.addressBits) (now : UInt64) (trailing : Bool) :
    e.send (sent ++ [(now, trailing)]) =
      { e with
        address := UInt32.ofNat (e.capacity.blockOf (shiftBits 0 (sent.map Prod.snd)))
        received := 0
        phase := .readData } := by
  have haddress := send_address (n := 0) (show e.phase = addressPhase true from hp) ha sent
    (by rw [hr, addressPhaseBits, ← hlen, Bool.toNat_true]; omega)
  rw [send_append, haddress, send, send]
  exact clockIn_trailing (n := shiftBits 0 (sent.map Prod.snd))
    (e := { e with
      address := UInt32.ofNat (2 * shiftBits 0 (sent.map Prod.snd))
      received := e.received + sent.length })
    hp (by dsimp only; omega) rfl now trailing

/-! ### Data -/

/-- Within a write the bits that have arrived are in their places. -/
theorem send_data (hp : e.phase = .writeData) (sent : List (UInt64 × Bool))
    (h : e.shifted + sent.length ≤ blockBits) :
    e.send sent =
      { e with
        storage := e.storage.setBits e.block e.shifted (sent.map Prod.snd)
        shifted := e.shifted + sent.length } := by
  induction sent generalizing e with
  | nil => rfl
  | cons x sent ih =>
      rw [List.length_cons] at h
      have hstep : e.clockIn x.1 x.2 =
          { e with
            storage := e.storage.setBit e.block e.shifted x.2
            shifted := e.shifted + 1 } := by
        have hdata : e.shifted < blockBits := by omega
        have hmore : e.shifted ≠ blockBits := by omega
        rw [clockIn_writeData hp, shiftIn_more hmore, if_pos hdata]
      have hrest := ih
        (e := { e with
          storage := e.storage.setBit e.block e.shifted x.2
          shifted := e.shifted + 1 })
        hp (by dsimp only; omega)
      rw [send, hstep, hrest, List.length_cons, ← Nat.add_right_comm]
      rfl

theorem clockIn_terminator (hp : e.phase = .writeData) (hs : e.shifted = blockBits)
    (now : UInt64) (bit : Bool) :
    e.clockIn now bit =
      { e with
        shifted := 0
        phase := .idle
        ready := false
        deadline := busyUntil now
        dirty := true } := by
  rw [clockIn_writeData hp, shiftIn_last hs]

theorem send_block (hp : e.phase = .writeData) (hs : e.shifted = 0)
    {sent : List (UInt64 × Bool)} (hlen : sent.length = blockBits) (now : UInt64)
    (terminator : Bool) :
    e.send (sent ++ [(now, terminator)]) =
      { e with
        storage := e.storage.setBits e.block 0 (sent.map Prod.snd)
        shifted := 0
        phase := .idle
        ready := false
        deadline := busyUntil now
        dirty := true } := by
  have hdata := send_data hp sent (by omega)
  rw [hs, Nat.zero_add, hlen] at hdata
  rw [send_append, hdata, send, send]
  exact clockIn_terminator
    (e := { e with
      storage := e.storage.setBits e.block 0 (sent.map Prod.snd)
      shifted := blockBits })
    hp rfl now terminator

/-- The level of the data line at each read of a block. -/
def lineBit (e : Eeprom) (n : Nat) : Bool :=
  if n < leadBits then false else e.storage.bit e.block (n - leadBits)

theorem receive_data (hp : e.phase = .readData) (times : List UInt64)
    (hlt : e.shifted < leadBits + blockBits)
    (h : e.shifted + times.length ≤ leadBits + blockBits) :
    e.receive times =
      ((List.range' e.shifted times.length).map e.lineBit,
        if e.shifted + times.length = leadBits + blockBits then
          { e with shifted := 0, phase := .idle, ready := true }
        else
          { e with shifted := e.shifted + times.length }) := by
  induction times generalizing e with
  | nil =>
      rw [List.length_nil, if_neg (by omega)]
      rfl
  | cons now times ih =>
      rw [List.length_cons] at h ⊢
      have hbit : e.output now = e.lineBit e.shifted := by
        rw [output, hp]
        rfl
      have hstep : e.clockOut now = e.shiftOut := by rw [clockOut, hp]
      rw [receive, hbit, hstep, List.range'_succ, List.map_cons]
      by_cases hlast : e.shifted + 1 = leadBits + blockBits
      · have hnil : times = [] := List.eq_nil_of_length_eq_zero (by omega)
        subst hnil
        rw [shiftOut_last hlast, List.length_nil, Nat.zero_add, if_pos hlast]
        rfl
      · have hrest := ih (e := { e with shifted := e.shifted + 1 }) hp (by dsimp only; omega)
          (by dsimp only; omega)
        have hcount : e.shifted + 1 + times.length = e.shifted + (times.length + 1) := by omega
        rw [shiftOut_more hlast, hrest, hcount]
        rfl

/-- A whole block: four zeros, then the data bits in order. -/
theorem receive_block (hp : e.phase = .readData) (hs : e.shifted = 0) {times : List UInt64}
    (hlen : times.length = leadBits + blockBits) :
    e.receive times =
      (List.replicate leadBits false ++ (List.range blockBits).map (e.storage.bit e.block),
        { e with shifted := 0, phase := .idle, ready := true }) := by
  have hlead : (List.range' 0 leadBits).map e.lineBit = List.replicate leadBits false := rfl
  have hdata : e.lineBit ∘ (0 + leadBits + ·) = e.storage.bit e.block := by
    funext n
    rw [Function.comp_apply, Nat.zero_add, lineBit, if_neg (by omega), Nat.add_sub_cancel_left]
  have hlevels : (List.range' 0 (leadBits + blockBits)).map e.lineBit =
      List.replicate leadBits false ++ (List.range blockBits).map (e.storage.bit e.block) := by
    rw [← List.range'_append_1, List.map_append, hlead, List.range'_eq_map_range,
      List.map_map, hdata]
  rw [receive_data hp times (by rw [hs]; decide) (by omega), hs, hlen, Nat.zero_add, if_pos rfl,
    hlevels]

/-! ### Whole frames -/

/-- A whole write. -/
theorem send_write (h : e.Resting) (hs : e.shifted = 0) {t : UInt64} (hl : e.Listening t)
    (t' : UInt64) {address data : List (UInt64 × Bool)}
    (haddress : address.length = e.capacity.addressBits) (hdata : data.length = blockBits)
    (now : UInt64) (terminator : Bool) :
    e.send ((t, true) :: (t', false) :: (address ++ (data ++ [(now, terminator)]))) =
      { e with
        ready := false
        received := 0
        address := UInt32.ofNat (e.capacity.blockOf (shiftBits 0 (address.map Prod.snd)))
        phase := .idle
        command := 2
        deadline := busyUntil now
        storage :=
          e.storage.setBits (e.capacity.blockOf (shiftBits 0 (address.map Prod.snd))) 0
            (data.map Prod.snd)
        dirty := true } := by
  have hopened : e.send [(t, true), (t', false)] =
      { e with
        ready := true, address := 0, received := 0, command := 2, phase := .writeAddress } :=
    send_command h hl t' true false
  have haddressed := send_writeAddress
    (e := { e with
      ready := true, address := 0, received := 0, command := 2, phase := .writeAddress })
    rfl rfl rfl haddress
  have hstored := send_block
    (e := { e with
      ready := true
      address := UInt32.ofNat (e.capacity.blockOf (shiftBits 0 (address.map Prod.snd)))
      received := 0
      command := 2
      phase := .writeData })
    rfl hs hdata now terminator
  change (e.send [(t, true), (t', false)]).send (address ++ (data ++ [(now, terminator)])) = _
  rw [hopened, send_append, haddressed]
  dsimp only
  rw [hstored, block, block_eq, hs]

/-- A whole read, up to the data. -/
theorem send_read (h : e.Resting) {t : UInt64} (hl : e.Listening t) (t' : UInt64)
    {address : List (UInt64 × Bool)} (haddress : address.length = e.capacity.addressBits)
    (now : UInt64) (trailing : Bool) :
    e.send ((t, true) :: (t', true) :: (address ++ [(now, trailing)])) =
      { e with
        ready := true
        received := 0
        address := UInt32.ofNat (e.capacity.blockOf (shiftBits 0 (address.map Prod.snd)))
        phase := .readData
        command := 3 } := by
  have hopened : e.send [(t, true), (t', true)] =
      { e with
        ready := true, address := 0, received := 0, command := 3, phase := .readAddress } :=
    send_command h hl t' true true
  have haddressed := send_readAddress
    (e := { e with
      ready := true, address := 0, received := 0, command := 3, phase := .readAddress })
    rfl rfl rfl haddress now trailing
  change (e.send [(t, true), (t', true)]).send (address ++ [(now, trailing)]) = _
  rw [hopened, haddressed]

/-- A whole read, the data included. -/
theorem receive_read (h : e.Resting) (hs : e.shifted = 0) {t : UInt64} (hl : e.Listening t)
    (t' : UInt64) {address : List (UInt64 × Bool)}
    (haddress : address.length = e.capacity.addressBits) (now : UInt64) (trailing : Bool)
    {times : List UInt64} (htimes : times.length = leadBits + blockBits) :
    (e.send ((t, true) :: (t', true) :: (address ++ [(now, trailing)]))).receive times =
      (List.replicate leadBits false ++ (List.range blockBits).map
          (e.storage.bit (e.capacity.blockOf (shiftBits 0 (address.map Prod.snd)))),
        { e with
          ready := true
          received := 0
          shifted := 0
          address := UInt32.ofNat (e.capacity.blockOf (shiftBits 0 (address.map Prod.snd)))
          phase := .idle
          command := 3 }) := by
  have hdata := receive_block
    (e := { e with
      ready := true
      received := 0
      address := UInt32.ofNat (e.capacity.blockOf (shiftBits 0 (address.map Prod.snd)))
      phase := .readData
      command := 3 })
    rfl hs htimes
  rw [send_read h hl t' haddress, hdata, block, block_eq]

/-- The command that does nothing. -/
theorem send_null (h : e.Resting) {t : UInt64} (hl : e.Listening t) (t' : UInt64) :
    e.send [(t, false), (t', false)] =
      { e with ready := true, address := 0, received := 0, command := 0, phase := .idle } :=
  send_command h hl t' false false

end Eeprom

end SaveChip
