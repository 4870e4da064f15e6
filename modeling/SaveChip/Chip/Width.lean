/-! # Widths of a bus access

The processor reads and writes one, two or four bytes at a time (`Width.bytes`).  Values travel in a
word of 32 bits, and an access uses as many of its low bytes. -/

namespace SaveChip

inductive Width where
  | byte
  | half
  | word
deriving DecidableEq, Repr

namespace Width

def bytes : Width → Nat
  | byte => 1
  | half => 2
  | word => 4

/-- What the processor reads where nothing drives the bus. -/
def openBus : Width → UInt32
  | byte => 0xFF
  | half => 0xFFFF
  | word => 0xFFFFFFFF

/-- The byte a value carries on the lane that the low bits of the address select. -/
def lane (w : Width) (address value : UInt32) : UInt8 :=
  (value >>> UInt32.ofNat (8 * (address.toNat % w.bytes))).toUInt8

/-- One byte on every lane. -/
def replicate (w : Width) (b : UInt8) : UInt32 :=
  (List.range w.bytes).foldl (fun v i => v ||| b.toUInt32 <<< UInt32.ofNat (8 * i)) 0

theorem toNat_lane (w : Width) (address value : UInt32) :
    (w.lane address value).toNat = value.toNat >>> (8 * (address.toNat % w.bytes)) % 256 := by
  have h : 8 * (address.toNat % w.bytes) < 32 := by
    cases w <;> simp [bytes] <;> omega
  have hs : 8 * (address.toNat % w.bytes) < UInt32.size := Nat.lt_trans h (by decide)
  rw [lane, UInt32.toNat_toUInt8, UInt32.toNat_shiftRight, UInt32.toNat_ofNat_of_lt' hs,
    Nat.mod_eq_of_lt h]

end Width

end SaveChip
