/-! # Battery-backed storage

The bytes a backup chip keeps for the game.  A RAM reaches them one by one; a serial chip
reaches them in blocks of 64 bits.  The first bit of a block on the wire is the highest bit of
the block's last byte: data bit `n` lies in byte `7 - n / 8` of the block, at place `7 - n % 8`
of that byte.

Each operation keeps the size; `byte_setByte` and `bit_setBit` say that it changes the byte or
bit it names and no other.  A place outside the storage reads as zero and takes no write. -/

namespace SaveChip

/-- The bit of a byte at place `k`, the lowest at place zero. -/
def bitAt (v : UInt8) (k : Nat) : Bool := v.toBitVec.getLsbD k

/-- The byte with place `k` set to `b`. -/
def withBit (v : UInt8) (k : Nat) (b : Bool) : UInt8 :=
  (v &&& ~~~((1 : UInt8) <<< UInt8.ofNat k)) ||| (b.toUInt8 <<< UInt8.ofNat k)

theorem bitAt_withBit {k j : Nat} (hk : k < 8) (hj : j < 8) (v : UInt8) (b : Bool) :
    bitAt (withBit v k b) j = if j = k then b else bitAt v j := by
  have hm : k % 256 = k := Nat.mod_eq_of_lt (by omega)
  simp only [withBit, bitAt, UInt8.toBitVec_or, UInt8.toBitVec_and, UInt8.toBitVec_not,
    UInt8.toBitVec_shiftLeft, BitVec.getLsbD_or, BitVec.getLsbD_and, BitVec.getLsbD_not]
  simp [hm, hj, Nat.mod_eq_of_lt hk]
  grind

structure Storage where
  bytes : Array UInt8
deriving DecidableEq, Repr

namespace Storage

/-- A fresh chip holds ones only. -/
def erased (n : Nat) : Storage := ⟨Array.replicate n 0xFF⟩

def size (s : Storage) : Nat := s.bytes.size

def toList (s : Storage) : List UInt8 := s.bytes.toList

def ofList (bs : List UInt8) : Storage := ⟨bs.toArray⟩

def byte (s : Storage) (i : Nat) : UInt8 := s.bytes.getD i 0

def setByte (s : Storage) (i : Nat) (v : UInt8) : Storage := ⟨s.bytes.setIfInBounds i v⟩

/-- The byte that holds data bit `n` of a block. -/
def byteIndex (block n : Nat) : Nat := 8 * block + (7 - n / 8)

/-- The place of data bit `n` in its byte. -/
def bitPlace (n : Nat) : Nat := 7 - n % 8

def bit (s : Storage) (block n : Nat) : Bool := bitAt (s.byte (byteIndex block n)) (bitPlace n)

def setBit (s : Storage) (block n : Nat) (b : Bool) : Storage :=
  s.setByte (byteIndex block n) (withBit (s.byte (byteIndex block n)) (bitPlace n) b)

/-- Copies bytes over the front.  Bytes past the end are dropped, and where there are too few
the rest of the storage stays. -/
def overwrite (s : Storage) (bs : List UInt8) : Storage :=
  ofList (bs.take s.size ++ s.toList.drop bs.length)

@[simp] theorem length_toList (s : Storage) : s.toList.length = s.size := rfl

@[simp] theorem toList_ofList (bs : List UInt8) : (ofList bs).toList = bs := rfl

@[simp] theorem ofList_toList (s : Storage) : ofList s.toList = s := rfl

@[simp] theorem size_ofList (bs : List UInt8) : (ofList bs).size = bs.length := rfl

@[simp] theorem size_erased (n : Nat) : (erased n).size = n := by simp [erased, size]

@[simp] theorem size_setByte (s : Storage) (i : Nat) (v : UInt8) :
    (s.setByte i v).size = s.size := by
  simp [setByte, size]

@[simp] theorem size_setBit (s : Storage) (block n : Nat) (b : Bool) :
    (s.setBit block n b).size = s.size := by
  simp [setBit]

theorem byte_setByte {s : Storage} {i : Nat} (h : i < s.size) (v : UInt8) (j : Nat) :
    (s.setByte i v).byte j = if j = i then v else s.byte j := by
  unfold setByte byte
  by_cases hij : j = i
  · subst hij
    simp [size] at h
    simp [h]
  · simp [hij, Ne.symm hij]

/-- A data bit lies in a byte of its block. -/
theorem byteIndex_div {n : Nat} (hn : n < 64) (block : Nat) : byteIndex block n / 8 = block := by
  unfold byteIndex
  omega

/-- Setting a data bit changes one place of one byte. -/
theorem bitAt_setBit {s : Storage} {block n : Nat} (h : byteIndex block n < s.size) (b : Bool)
    (i : Nat) {k : Nat} (hk : k < 8) :
    bitAt ((s.setBit block n b).byte i) k =
      if i = byteIndex block n ∧ k = bitPlace n then b else bitAt (s.byte i) k := by
  unfold setBit
  rw [byte_setByte h]
  by_cases hi : i = byteIndex block n
  · subst hi
    rw [if_pos rfl, bitAt_withBit (by unfold bitPlace; omega) hk]
    simp
  · rw [if_neg hi, if_neg fun hc => hi hc.1]

theorem bit_setBit {s : Storage} {block n m : Nat} (hn : n < 64) (hm : m < 64)
    (h : 8 * block + 8 ≤ s.size) (b : Bool) (block' : Nat) :
    (s.setBit block n b).bit block' m = if block' = block ∧ m = n then b else s.bit block' m := by
  have hi : byteIndex block n < s.size := by
    unfold byteIndex
    omega
  have hplace : bitPlace m < 8 := by
    unfold bitPlace
    omega
  have hsame : byteIndex block' m = byteIndex block n ∧ bitPlace m = bitPlace n ↔
      block' = block ∧ m = n := by
    unfold byteIndex bitPlace
    omega
  unfold bit
  rw [bitAt_setBit hi b _ hplace]
  simp only [hsame]

theorem toList_overwrite (s : Storage) (bs : List UInt8) :
    (s.overwrite bs).toList = bs.take s.size ++ s.toList.drop bs.length := rfl

@[simp] theorem size_overwrite (s : Storage) (bs : List UInt8) :
    (s.overwrite bs).size = s.size := by
  rw [← length_toList, toList_overwrite]
  simp
  omega

end Storage

end SaveChip
