import SaveChip.LittleEndian

/-! # Fields of a snapshot

A snapshot is a sequence of fields: flags of one byte, words of four, double words of eight,
and runs of raw bytes.  `Field` is a field with its value and `Shape` is a field without it,
which is all a reader has to know.  Numbers are little-endian.

`decode_encode` says that the shape of a field is enough to read it back, and
`length_encode` that it is enough to know its width. -/

namespace SaveChip

inductive Field where
  | flag (value : Bool)
  | word (value : UInt32)
  | dword (value : UInt64)
  | bytes (values : List UInt8)
deriving DecidableEq, Repr

inductive Shape where
  | flag
  | word
  | dword
  | bytes (count : Nat)
deriving DecidableEq, Repr

namespace Shape

/-- The bytes a field of this shape takes. -/
def width : Shape → Nat
  | flag => 1
  | word => 4
  | dword => 8
  | bytes count => count

/-- The field spelled by `width` bytes.  Every byte but zero is a raised flag. -/
def decode : Shape → List UInt8 → Field
  | flag, bs => .flag (LittleEndian.decode bs != 0)
  | word, bs => .word (UInt32.ofNat (LittleEndian.decode bs))
  | dword, bs => .dword (UInt64.ofNat (LittleEndian.decode bs))
  | bytes _, bs => .bytes bs

end Shape

namespace Field

def shape : Field → Shape
  | flag _ => .flag
  | word _ => .word
  | dword _ => .dword
  | bytes values => .bytes values.length

/-- The bytes of a field.  A raised flag is written as one. -/
def encode : Field → List UInt8
  | flag value => LittleEndian.encode 1 value.toNat
  | word value => LittleEndian.encode 4 value.toNat
  | dword value => LittleEndian.encode 8 value.toNat
  | bytes values => values

def width (f : Field) : Nat := f.shape.width

@[simp] theorem length_encode (f : Field) : f.encode.length = f.width := by
  cases f <;> simp [encode, width, shape, Shape.width]

@[simp] theorem decode_encode (f : Field) : f.shape.decode f.encode = f := by
  cases f with
  | flag value => cases value <;> rfl
  | word value =>
      have h : value.toNat < LittleEndian.count 4 := value.toNat_lt
      simp [shape, Shape.decode, encode, LittleEndian.decode_encode_of_lt h]
  | dword value =>
      have h : value.toNat < LittleEndian.count 8 := value.toNat_lt
      simp [shape, Shape.decode, encode, LittleEndian.decode_encode_of_lt h]
  | bytes values => rfl

end Field

namespace Shape

theorem shape_decode (s : Shape) {bs : List UInt8} (h : bs.length = s.width) :
    (s.decode bs).shape = s := by
  cases s <;> simp_all [decode, Field.shape, width]

theorem encode_decode_word {bs : List UInt8} (h : bs.length = 4) :
    (word.decode bs).encode = bs := by
  have hlt : LittleEndian.decode bs < UInt32.size := by
    have := LittleEndian.decode_lt bs
    rwa [h] at this
  rw [decode, Field.encode, UInt32.toNat_ofNat_of_lt' hlt, ← h, LittleEndian.encode_decode]

theorem encode_decode_dword {bs : List UInt8} (h : bs.length = 8) :
    (dword.decode bs).encode = bs := by
  have hlt : LittleEndian.decode bs < UInt64.size := by
    have := LittleEndian.decode_lt bs
    rwa [h] at this
  rw [decode, Field.encode, UInt64.toNat_ofNat_of_lt' hlt, ← h, LittleEndian.encode_decode]

end Shape

end SaveChip
