import SaveChip.Proofs.Storage.Word

/-! # Bits over a word

A block that is being written holds the bits that have arrived, and behind them the rest of its
former word.  `overlay` is that word.  `setBits_eq_setWord` says that setting bits one after another
from the front of a block is to put this word in the place of the former one (`setWord`), and it
rests on two facts: bits and the number they spell are the same thing (`msbFirst_shiftBits`), and a
storage is known by the words of its blocks (`eq_of_word`). -/

namespace SaveChip

/-! ### Numbers on the wire -/

theorem msbFirst_shiftBits_append (w n : Nat) (bits : List Bool) :
    msbFirst (w + bits.length) (shiftBits n bits) = msbFirst w n ++ bits := by
  induction bits generalizing w n with
  | nil => rw [List.length_nil, List.append_nil, Nat.add_zero]; rfl
  | cons b bits ih =>
      have hcount : w + (bits.length + 1) = w + 1 + bits.length := by omega
      have hhalf : (2 * n + b.toNat) / 2 = n := by
        have hb : b.toNat ≤ 1 := Bool.toNat_le b
        omega
      have hfront : msbFirst (w + 1) (2 * n + b.toNat) = msbFirst w n ++ [b] := by
        rw [msbFirst_succ, hhalf, testBit_double_zero]
      rw [List.length_cons, hcount, List.append_cons, ← hfront]
      exact ih (w + 1) (2 * n + b.toNat)

theorem msbFirst_shiftBits (bits : List Bool) :
    msbFirst bits.length (shiftBits 0 bits) = bits := by
  have h := msbFirst_shiftBits_append 0 0 bits
  rwa [Nat.zero_add] at h

theorem testBit_shiftBits_zero {bits : List Bool} {n : Nat} (h : n < bits.length) :
    (shiftBits 0 bits).testBit (bits.length - 1 - n) = bits[n] := by
  have hlength : n < (msbFirst bits.length (shiftBits 0 bits)).length := by
    rw [length_msbFirst]
    exact h
  rw [← getElem_msbFirst hlength]
  simp only [msbFirst_shiftBits]

/-- A word with its first bits on the wire replaced. -/
def overlay (v : UInt64) (bits : List Bool) : UInt64 :=
  UInt64.ofNat (shiftBits 0 (bits ++ (msbFirst 64 v.toNat).drop bits.length))

theorem overlay_of_length {bits : List Bool} (h : bits.length = 64) (v : UInt64) :
    overlay v bits = UInt64.ofNat (shiftBits 0 bits) := by
  have hshort : (msbFirst 64 v.toNat).length ≤ bits.length := by
    have hlength := length_msbFirst 64 v.toNat
    omega
  rw [overlay, List.drop_eq_nil_of_le hshort, List.append_nil]

theorem testBit_overlay {bits : List Bool} (h : bits.length ≤ 64) (v : UInt64) {n : Nat}
    (hn : n < 64) :
    (overlay v bits).toNat.testBit (63 - n) =
      if n < bits.length then bits.getD n false else v.toNat.testBit (63 - n) := by
  have hlength : (bits ++ (msbFirst 64 v.toNat).drop bits.length).length = 64 := by
    rw [List.length_append, List.length_drop, length_msbFirst]
    omega
  have hplace : 63 - n = (bits ++ (msbFirst 64 v.toNat).drop bits.length).length - 1 - n := by omega
  have hlow : (overlay v bits).toNat.testBit (63 - n) =
      (shiftBits 0 (bits ++ (msbFirst 64 v.toNat).drop bits.length)).testBit (63 - n) := by
    have hmod := Nat.testBit_mod_two_pow
      (shiftBits 0 (bits ++ (msbFirst 64 v.toNat).drop bits.length)) 64 (63 - n)
    rw [decide_eq_true (by omega), Bool.true_and] at hmod
    exact hmod
  rw [hlow, hplace, testBit_shiftBits_zero (by omega)]
  by_cases hfront : n < bits.length
  · rw [if_pos hfront, List.getElem_append_left hfront, ← List.getElem_eq_getD (h := hfront) false]
  · have hback : bits.length + (n - bits.length) = n := by omega
    rw [if_neg hfront, List.getElem_append_right (by omega), List.getElem_drop, getElem_msbFirst,
      hback, hlength]

/-- The bits of a word hide whatever they are laid over. -/
theorem overlay_msbFirst (v v' : UInt64) : overlay v (msbFirst 64 v'.toNat) = v' := by
  apply eq_of_testBit
  intro n hn
  have hlength : n < (msbFirst 64 v'.toNat).length := by
    rw [length_msbFirst]
    exact hn
  rw [testBit_overlay (Nat.le_of_eq (length_msbFirst ..)) v hn, if_pos hlength,
    ← List.getElem_eq_getD (h := hlength) false, getElem_msbFirst]

/-! ### The word of a block -/

namespace Storage

variable {s s' : Storage} {block block' : Nat}

/-- The storage with another word in a block. -/
def setWord (s : Storage) (block : Nat) (v : UInt64) : Storage :=
  ofList (s.toList.take (8 * block) ++
    (LittleEndian.encode 8 v.toNat ++ s.toList.drop (8 * block + 8)))

theorem size_setWord (h : 8 * block + 8 ≤ s.size) (v : UInt64) :
    (s.setWord block v).size = s.size := by
  rw [setWord, size_ofList, List.length_append, List.length_append, List.length_take,
    List.length_drop, LittleEndian.length_encode, length_toList]
  omega

theorem getElem?_setWord (h : 8 * block + 8 ≤ s.size) (v : UInt64) (i : Nat) :
    (s.setWord block v).toList[i]? =
      if 8 * block ≤ i ∧ i < 8 * block + 8 then
        (LittleEndian.encode 8 v.toNat)[i - 8 * block]?
      else
        s.toList[i]? := by
  have hfront : (s.toList.take (8 * block)).length = 8 * block := by
    rw [List.length_take, length_toList]
    omega
  rw [setWord, toList_ofList, List.getElem?_append, hfront]
  by_cases hbefore : i < 8 * block
  · rw [if_pos hbefore, if_neg (by omega), List.getElem?_take_of_lt hbefore]
  · rw [if_neg hbefore, List.getElem?_append, LittleEndian.length_encode]
    by_cases hinside : i - 8 * block < 8
    · rw [if_pos hinside, if_pos (by omega)]
    · have hafter : 8 * block + 8 + (i - 8 * block - 8) = i := by omega
      rw [if_neg hinside, if_neg (by omega), List.getElem?_drop, hafter]

theorem blockBytes_setWord (h : 8 * block + 8 ≤ s.size) (v : UInt64) (block' : Nat) :
    (s.setWord block v).blockBytes block' =
      if block' = block then LittleEndian.encode 8 v.toNat else s.blockBytes block' := by
  apply List.ext_getElem?
  intro j
  rw [blockBytes, List.getElem?_take]
  by_cases hj : j < 8
  · rw [if_pos hj, List.getElem?_drop, getElem?_setWord h]
    by_cases hblock : block' = block
    · subst hblock
      rw [if_pos (by omega), if_pos rfl, Nat.add_sub_cancel_left]
    · rw [if_neg (by omega), if_neg hblock, blockBytes, List.getElem?_take_of_lt hj,
        List.getElem?_drop]
  · rw [if_neg hj]
    split
    · rw [List.getElem?_eq_none]
      rw [LittleEndian.length_encode]
      omega
    · rw [blockBytes, List.getElem?_take, if_neg hj]

theorem word_setWord (h : 8 * block + 8 ≤ s.size) (v : UInt64) (block' : Nat) :
    (s.setWord block v).word block' = if block' = block then v else s.word block' := by
  rw [word, blockBytes_setWord h]
  by_cases hblock : block' = block
  · have hback := LittleEndian.decode_encode_of_lt (w := 8) v.toNat_lt
    rw [if_pos hblock, if_pos hblock, hback, UInt64.ofNat_toNat]
  · rw [if_neg hblock, if_neg hblock, word]

/-- A storage of whole blocks is known by their words. -/
theorem eq_of_word (hsize : s'.size = s.size) (hwhole : s.size % 8 = 0)
    (h : ∀ block, 8 * block + 8 ≤ s.size → s'.word block = s.word block) : s' = s := by
  have hbyte : ∀ i < s.size, s'.byte i = s.byte i := by
    intro i hi
    have hfits : 8 * (i / 8) + 8 ≤ s.size := by omega
    have hplace : 8 * (i / 8) + i % 8 = i := by omega
    have hblock : s'.blockBytes (i / 8) = s.blockBytes (i / 8) := by
      rw [blockBytes_eq (s := s') (by omega), blockBytes_eq hfits, h _ hfits]
    have hbytes := getD_blockBytes s' (i / 8) (show i % 8 < 8 by omega)
    rw [hblock, getD_blockBytes s (i / 8) (by omega), hplace] at hbytes
    exact hbytes.symm
  have harrays : s'.bytes = s.bytes := by
    apply Array.ext
    · exact hsize
    · intro i hi hi'
      have hsame := hbyte i hi'
      rwa [byte, byte, Array.getD_eq_getD_getElem?, Array.getD_eq_getD_getElem?,
        Array.getElem?_eq_getElem hi, Array.getElem?_eq_getElem hi'] at hsame
  exact congrArg Storage.mk harrays

/-- Bits set from the front of a block lie over the word of the block. -/
theorem word_setBits_overlay {bits : List Bool} (h : 8 * block + 8 ≤ s.size)
    (hbits : bits.length ≤ 64) (h' : 8 * block' + 8 ≤ s.size) :
    (s.setBits block 0 bits).word block' =
      if block' = block then overlay (s.word block) bits else s.word block' := by
  apply word_eq
  · rw [size_setBits]
    exact h'
  · intro n hn
    rw [bit_setBits h (by omega) hn]
    by_cases hblock : block' = block
    · subst hblock
      rw [if_pos rfl, testBit_overlay hbits _ hn, testBit_word h hn]
      by_cases hfront : n < bits.length
      · rw [if_pos ⟨rfl, by omega, by omega⟩, if_pos hfront, Nat.sub_zero]
      · rw [if_neg fun hc => hfront (by omega), if_neg hfront]
    · rw [if_neg hblock, if_neg fun hc => hblock hc.1, testBit_word h' hn]

theorem word_setBits (h : 8 * block + 8 ≤ s.size) (h' : 8 * block' + 8 ≤ s.size) (v : UInt64) :
    (s.setBits block 0 (msbFirst 64 v.toNat)).word block' =
      if block' = block then v else s.word block' := by
  rw [word_setBits_overlay h (Nat.le_of_eq (length_msbFirst ..)) h', overlay_msbFirst]

/-- Setting bits from the front of a block replaces its word. -/
theorem setBits_eq_setWord {bits : List Bool} (h : 8 * block + 8 ≤ s.size)
    (hwhole : s.size % 8 = 0) (hbits : bits.length ≤ 64) :
    s.setBits block 0 bits = s.setWord block (overlay (s.word block) bits) := by
  apply eq_of_word
  · rw [size_setBits, size_setWord h]
  · rw [size_setWord h]
    exact hwhole
  · intro block' hblock'
    rw [size_setWord h] at hblock'
    rw [word_setBits_overlay h hbits hblock', word_setWord h]

end Storage

end SaveChip
