/-! # Little-endian words

A number is written as a fixed count of bytes, the least significant first.  `encode w n`
keeps the low `8 * w` bits of `n`; `decode` reads any list of bytes as the number it spells.
The two are inverse to each other on numbers below `count w` (`decode_encode_of_lt`) and on
lists of length `w` (`encode_decode`). -/

namespace SaveChip.LittleEndian

/-- The `w` low bytes of `n`, least significant first. -/
def encode : Nat → Nat → List UInt8
  | 0, _ => []
  | w + 1, n => UInt8.ofNat n :: encode w (n / 256)

/-- The number spelled by a list of bytes, least significant first. -/
def decode : List UInt8 → Nat
  | [] => 0
  | b :: bs => b.toNat + 256 * decode bs

/-- How many numbers `w` bytes can spell. -/
def count : Nat → Nat
  | 0 => 1
  | w + 1 => 256 * count w

@[simp] theorem length_encode (w n : Nat) : (encode w n).length = w := by
  induction w generalizing n with
  | zero => rfl
  | succ w ih => simp [encode, ih]

theorem decode_lt (bs : List UInt8) : decode bs < count bs.length := by
  induction bs with
  | nil => exact Nat.one_pos
  | cons b bs ih =>
      have hb : b.toNat < 256 := b.toNat_lt
      rw [decode, List.length_cons, count]
      omega

theorem decode_encode (w n : Nat) : decode (encode w n) = n % count w := by
  induction w generalizing n with
  | zero => simp [encode, decode, count, Nat.mod_one]
  | succ w ih =>
      rw [encode, decode, ih, count, Nat.mod_mul]
      simp

theorem decode_encode_of_lt {w n : Nat} (h : n < count w) : decode (encode w n) = n := by
  rw [decode_encode, Nat.mod_eq_of_lt h]

theorem encode_decode (bs : List UInt8) : encode bs.length (decode bs) = bs := by
  induction bs with
  | nil => rfl
  | cons b bs ih =>
      have hb : b.toNat < 256 := b.toNat_lt
      have hlow : UInt8.ofNat (b.toNat + 256 * decode bs) = b := by
        apply UInt8.toNat_inj.mp
        simp
      have hhigh : (b.toNat + 256 * decode bs) / 256 = decode bs := by omega
      rw [List.length_cons, encode, decode, hlow, hhigh, ih]

end SaveChip.LittleEndian
