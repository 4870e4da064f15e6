import SaveChip.LittleEndian
import SaveChip.Storage

/-! # Blocks as words

A block of eight bytes is a little-endian word, and on the wire it goes out with the highest bit
first: data bit `n` of a block is bit `63 - n` of its word (`testBit_word`).  The data bits of a block
are set one after another, as they arrive (`setBits`). -/

namespace SaveChip

/-! ### Numbers on the wire -/

/-- The low `w` bits of a number, the highest first. -/
def msbFirst (w n : Nat) : List Bool := (List.range w).reverse.map n.testBit

/-- Shifts bits into a number at the low end. -/
def shiftBits (n : Nat) (bits : List Bool) : Nat := bits.foldl (fun n b => 2 * n + b.toNat) n

@[simp] theorem length_msbFirst (w n : Nat) : (msbFirst w n).length = w := by
  simp [msbFirst]

theorem getElem_msbFirst {w n i : Nat} (h : i < (msbFirst w n).length) :
    (msbFirst w n)[i] = n.testBit (w - 1 - i) := by
  simp [msbFirst]

theorem msbFirst_succ (w n : Nat) :
    msbFirst (w + 1) n = msbFirst w (n / 2) ++ [n.testBit 0] := by
  have htail : (n.testBit ∘ Nat.succ) = (n / 2).testBit := by
    funext i
    exact Nat.testBit_succ ..
  rw [msbFirst, List.range_succ_eq_map, List.reverse_cons, List.map_append, ← List.map_reverse,
    List.map_map, htail]
  rfl

theorem shiftBits_append (n : Nat) (xs ys : List Bool) :
    shiftBits n (xs ++ ys) = shiftBits (shiftBits n xs) ys :=
  List.foldl_append ..

theorem testBit_double_zero (n : Nat) (b : Bool) : (2 * n + b.toNat).testBit 0 = b := by
  rw [Nat.testBit_zero]
  cases b with
  | false => exact decide_eq_false (by rw [Bool.toNat_false]; omega)
  | true => exact decide_eq_true (by rw [Bool.toNat_true]; omega)

theorem testBit_double_succ (n : Nat) (b : Bool) (i : Nat) :
    (2 * n + b.toNat).testBit (i + 1) = n.testBit i := by
  have hhalf : (2 * n + b.toNat) / 2 = n := by
    have hb : b.toNat ≤ 1 := Bool.toNat_le b
    omega
  rw [Nat.testBit_succ, hhalf]

theorem double_or (n : Nat) (b : Bool) : 2 * n ||| b.toNat = 2 * n + b.toNat := by
  have heven : 2 * n = 2 * n + false.toNat := rfl
  apply Nat.eq_of_testBit_eq
  intro i
  cases i with
  | zero =>
      rw [Nat.testBit_or, testBit_double_zero, heven, testBit_double_zero]
      cases b <;> rfl
  | succ i =>
      rw [Nat.testBit_or, testBit_double_succ, heven, testBit_double_succ]
      cases b <;> simp [Nat.testBit_succ]

/-- The bits of a number spell its low end again. -/
theorem testBit_shiftBits (w n i : Nat) :
    (shiftBits 0 (msbFirst w n)).testBit i = (decide (i < w) && n.testBit i) := by
  induction w generalizing n i with
  | zero => simp [msbFirst, shiftBits]
  | succ w ih =>
      rw [msbFirst_succ, shiftBits_append]
      change (2 * shiftBits 0 (msbFirst w (n / 2)) + (n.testBit 0).toNat).testBit i = _
      cases i with
      | zero =>
          rw [testBit_double_zero]
          simp
      | succ i =>
          rw [testBit_double_succ, ih, ← Nat.testBit_succ]
          simp

/-- Words with the same bits on the wire are the same. -/
theorem eq_of_testBit {v v' : UInt64}
    (h : ∀ n < 64, v.toNat.testBit (63 - n) = v'.toNat.testBit (63 - n)) : v = v' := by
  apply UInt64.eq_of_toBitVec_eq
  apply BitVec.eq_of_getLsbD_eq
  intro i hi
  have hplace : 63 - (63 - i) = i := by omega
  have hsame := h (63 - i) (by omega)
  rw [hplace] at hsame
  exact hsame

theorem LittleEndian.testBit_decode (bs : List UInt8) (j : Nat) {k : Nat} (hk : k < 8) :
    (decode bs).testBit (8 * j + k) = bitAt (bs.getD j 0) k := by
  induction bs generalizing j with
  | nil => simp [decode, bitAt]
  | cons b bs ih =>
      rw [decode, Nat.add_comm]
      refine (Nat.testBit_two_pow_mul_add (decode bs) b.toNat_lt _).trans ?_
      cases j with
      | zero =>
          rw [if_pos (by omega), Nat.mul_zero, Nat.zero_add]
          rfl
      | succ j =>
          have hnext : 8 * (j + 1) + k - 8 = 8 * j + k := by omega
          rw [if_neg (by omega), hnext, ih]
          rfl

/-! ### The word in a block -/

namespace Storage

variable {s : Storage} {block n : Nat}

/-- The bytes of a block. -/
def blockBytes (s : Storage) (block : Nat) : List UInt8 := (s.toList.drop (8 * block)).take 8

/-- The word in a block. -/
def word (s : Storage) (block : Nat) : UInt64 :=
  UInt64.ofNat (LittleEndian.decode (s.blockBytes block))

theorem length_blockBytes (h : 8 * block + 8 ≤ s.size) : (s.blockBytes block).length = 8 := by
  rw [blockBytes, List.length_take, List.length_drop, length_toList]
  omega

theorem toNat_word (h : 8 * block + 8 ≤ s.size) :
    (s.word block).toNat = LittleEndian.decode (s.blockBytes block) := by
  have hlt := LittleEndian.decode_lt (s.blockBytes block)
  rw [length_blockBytes h] at hlt
  exact UInt64.toNat_ofNat_of_lt' hlt

/-- A block holds the bytes of its word, the lowest first. -/
theorem blockBytes_eq (h : 8 * block + 8 ≤ s.size) :
    s.blockBytes block = LittleEndian.encode 8 (s.word block).toNat := by
  have hback := LittleEndian.encode_decode (s.blockBytes block)
  rw [length_blockBytes h] at hback
  rw [toNat_word h, hback]

theorem getD_blockBytes (s : Storage) (block : Nat) {j : Nat} (hj : j < 8) :
    (s.blockBytes block).getD j 0 = s.byte (8 * block + j) := by
  rw [blockBytes, List.getD_eq_getElem?_getD, List.getElem?_take_of_lt hj, List.getElem?_drop]
  simp [toList, byte, Array.getD_eq_getD_getElem?]

theorem testBit_word (h : 8 * block + 8 ≤ s.size) (hn : n < 64) :
    (s.word block).toNat.testBit (63 - n) = s.bit block n := by
  have hplace : 63 - n = 8 * (7 - n / 8) + (7 - n % 8) := by omega
  rw [toNat_word h, hplace, LittleEndian.testBit_decode _ _ (by omega),
    getD_blockBytes _ _ (by omega)]
  rfl

/-- A word is known by the data bits of its block. -/
theorem word_eq {v : UInt64} (h : 8 * block + 8 ≤ s.size)
    (hbits : ∀ n < 64, s.bit block n = v.toNat.testBit (63 - n)) : s.word block = v :=
  eq_of_testBit fun n hn => (testBit_word h hn).trans (hbits n hn)

/-- The data bits of a block are the bits of its word. -/
theorem map_bit (h : 8 * block + 8 ≤ s.size) :
    (List.range 64).map (s.bit block) = msbFirst 64 (s.word block).toNat := by
  apply List.ext_getElem
  · simp
  · intro n hn _
    have hn' : n < 64 := by simpa using hn
    rw [getElem_msbFirst, List.getElem_map, List.getElem_range, ← testBit_word h hn']

/-! ### Setting the bits of a block -/

/-- Sets data bits of a block one after another, from bit `n` on. -/
def setBits (s : Storage) (block n : Nat) : List Bool → Storage
  | [] => s
  | b :: bs => (s.setBit block n b).setBits block (n + 1) bs

@[simp] theorem size_setBits (s : Storage) (block n : Nat) (bs : List Bool) :
    (s.setBits block n bs).size = s.size := by
  induction bs generalizing s n with
  | nil => rfl
  | cons b bs ih => rw [setBits, ih, size_setBit]

theorem bit_setBits {bs : List Bool} {m : Nat} (h : 8 * block + 8 ≤ s.size)
    (hbs : n + bs.length ≤ 64) (hm : m < 64) (block' : Nat) :
    (s.setBits block n bs).bit block' m =
      if block' = block ∧ n ≤ m ∧ m < n + bs.length then
        bs.getD (m - n) false
      else
        s.bit block' m := by
  induction bs generalizing s n with
  | nil =>
      rw [if_neg]
      · rfl
      · rintro ⟨-, hle, hlt⟩
        rw [List.length_nil] at hlt
        omega
  | cons b bs ih =>
      rw [List.length_cons] at hbs ⊢
      rw [setBits, ih (by rw [size_setBit]; exact h) (by omega), bit_setBit (by omega) hm h]
      by_cases hblock : block' = block
      · by_cases hlater : n + 1 ≤ m ∧ m < n + 1 + bs.length
        · have hindex : m - n = m - (n + 1) + 1 := by omega
          rw [if_pos ⟨hblock, hlater⟩, if_pos ⟨hblock, by omega, by omega⟩, hindex,
            List.getD_cons_succ]
        · rw [if_neg fun hc => hlater hc.2]
          by_cases hfirst : m = n
          · subst hfirst
            rw [if_pos ⟨hblock, rfl⟩, if_pos ⟨hblock, by omega, by omega⟩, Nat.sub_self,
              List.getD_cons_zero]
          · rw [if_neg fun hc => hfirst hc.2, if_neg fun hc => hlater (by omega)]
      · rw [if_neg fun hc => hblock hc.1, if_neg fun hc => hblock hc.1,
          if_neg fun hc => hblock hc.1]

/-- The bytes of the other blocks stay. -/
theorem byte_setBits {bs : List Bool} {i : Nat} (h : 8 * block + 8 ≤ s.size)
    (hbs : n + bs.length ≤ 64) (hi : i / 8 ≠ block) : (s.setBits block n bs).byte i = s.byte i := by
  induction bs generalizing s n with
  | nil => rfl
  | cons b bs ih =>
      rw [List.length_cons] at hbs
      have hplace : byteIndex block n < s.size := by
        unfold byteIndex
        omega
      have hother : i ≠ byteIndex block n := by
        rintro rfl
        exact hi (byteIndex_div (by omega) block)
      rw [setBits, ih (by rw [size_setBit]; exact h) (by omega), setBit, byte_setByte hplace,
        if_neg hother]

end Storage

end SaveChip
