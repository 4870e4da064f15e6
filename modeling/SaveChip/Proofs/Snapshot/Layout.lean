import SaveChip.Chip.Basic

/-! # Where the fields of a snapshot lie

A cursor with enough room goes through a sequence of fields without stopping: what it writes is
the concatenation of their bytes (`putAll_eq`), what it reads is each field decoded from its own
bytes (`getAll_eq`), and the one undoes the other (`decodeAll_encodeAll`).

For the header this fixes an offset for every field.  `Header.ofBytes` reads a header off the
front of a list of bytes by these offsets; it is what `Header.load` takes from a buffer of at
least 33 bytes (`load_ofBuffer`), and it reads back what a header writes (`ofBytes_encode`).  The
snapshot of a chip is its header followed by its contents (`snapshot_eq`). -/

namespace SaveChip

/-- The bytes that fields of these shapes take together. -/
def Shape.totalWidth (ss : List Shape) : Nat := ss.foldr (fun s n => s.width + n) 0

/-- Fields read one after another from the front of a list of bytes. -/
def Shape.decodeAll : List Shape → List UInt8 → List Field
  | [], _ => []
  | s :: ss, bs => s.decode (bs.take s.width) :: decodeAll ss (bs.drop s.width)

/-- The bytes of a sequence of fields. -/
def Field.encodeAll (fs : List Field) : List UInt8 := fs.flatMap encode

theorem Shape.totalWidth_cons (s : Shape) (ss : List Shape) :
    totalWidth (s :: ss) = s.width + totalWidth ss := rfl

@[simp] theorem Field.length_encodeAll (fs : List Field) :
    (encodeAll fs).length = Shape.totalWidth (fs.map shape) := by
  induction fs with
  | nil => rfl
  | cons f fs ih =>
      rw [encodeAll, List.flatMap_cons, List.length_append, Field.length_encode, List.map_cons,
        Shape.totalWidth_cons, ← ih]
      rfl

/-- The shapes of a sequence of fields are enough to read it back. -/
theorem Shape.decodeAll_encodeAll (fs : List Field) (rest : List UInt8) :
    decodeAll (fs.map Field.shape) (Field.encodeAll fs ++ rest) = fs := by
  induction fs with
  | nil => rfl
  | cons f fs ih =>
      have hlen : f.encode.length = f.shape.width := f.length_encode
      rw [List.map_cons, decodeAll, Field.encodeAll, List.flatMap_cons, List.append_assoc,
        List.take_left' hlen, List.drop_left' hlen, Field.decode_encode]
      exact congrArg _ ih

/-! ### Cursors with enough room -/

namespace Writer

theorem put_eq {w : Writer} {f : Field} (h : w.position + f.width ≤ w.buffer.length) :
    w.put f = some
      { buffer := w.buffer.take w.position ++ f.encode ++ w.buffer.drop (w.position + f.width)
        position := w.position + f.width } := by
  unfold put
  rw [if_pos h]

theorem putAll_eq {w : Writer} {fs : List Field}
    (h : w.position + Shape.totalWidth (fs.map Field.shape) ≤ w.buffer.length) :
    w.putAll fs = (true,
      { buffer := w.buffer.take w.position ++ Field.encodeAll fs ++
          w.buffer.drop (w.position + Shape.totalWidth (fs.map Field.shape))
        position := w.position + Shape.totalWidth (fs.map Field.shape) }) := by
  induction fs generalizing w with
  | nil => simp [putAll, Field.encodeAll, Shape.totalWidth]
  | cons f fs ih =>
      rw [List.map_cons, Shape.totalWidth_cons] at h ⊢
      have hf : f.shape.width = f.width := rfl
      have hput := put_eq (w := w) (f := f) (by omega)
      have hfront : (w.buffer.take w.position ++ f.encode).length = w.position + f.width := by
        simp
        omega
      rw [putAll, hput]
      dsimp only
      rw [ih (by rw [length_buffer_put hput]; dsimp only; omega)]
      dsimp only
      rw [List.take_left' hfront, ← List.drop_drop, List.drop_left' hfront, List.drop_drop, hf,
        Field.encodeAll, Field.encodeAll, List.flatMap_cons]
      simp only [List.append_assoc, Nat.add_assoc]

end Writer

namespace Reader

theorem get_eq {r : Reader} {s : Shape} (h : r.position + s.width ≤ r.buffer.length) :
    r.get s = some (s.decode ((r.buffer.drop r.position).take s.width),
      { r with position := r.position + s.width }) := by
  unfold get
  rw [if_pos h]

theorem getAll_eq {r : Reader} {ss : List Shape}
    (h : r.position + Shape.totalWidth ss ≤ r.buffer.length) :
    r.getAll ss = (Shape.decodeAll ss (r.buffer.drop r.position),
      { r with position := r.position + Shape.totalWidth ss }) := by
  induction ss generalizing r with
  | nil => rfl
  | cons s ss ih =>
      rw [Shape.totalWidth_cons] at h ⊢
      rw [getAll, get_eq (by omega)]
      dsimp only
      rw [ih (by dsimp only; omega)]
      simp only [Shape.decodeAll, List.drop_drop, Nat.add_assoc]

end Reader

/-! ### The header -/

/-- The flag at an offset. -/
def flagAt (bs : List UInt8) (offset : Nat) : Bool :=
  LittleEndian.decode ((bs.drop offset).take 1) != 0

/-- The little-endian word at an offset. -/
def wordAt (bs : List UInt8) (offset : Nat) : UInt32 :=
  UInt32.ofNat (LittleEndian.decode ((bs.drop offset).take 4))

/-- The little-endian double word at an offset. -/
def dwordAt (bs : List UInt8) (offset : Nat) : UInt64 :=
  UInt64.ofNat (LittleEndian.decode ((bs.drop offset).take 8))

namespace Header

def encode (h : Header) : List UInt8 := Field.encodeAll h.fields

/-- The header at the front of a list of bytes. -/
def ofBytes (bs : List UInt8) : Header where
  ready := flagAt bs 0
  sizeMask := wordAt bs 1
  received := wordAt bs 5
  shifted := wordAt bs 9
  address := wordAt bs 13
  phase := wordAt bs 17
  command := wordAt bs 21
  deadline := dwordAt bs 25

theorem totalWidth_shapes : Shape.totalWidth shapes = width := rfl

@[simp] theorem length_encode (h : Header) : h.encode.length = width := by
  rw [encode, Field.length_encodeAll, map_shape_fields, totalWidth_shapes]

theorem ofFields?_decodeAll (bs : List UInt8) :
    ofFields? (Shape.decodeAll shapes bs) = some (ofBytes bs) := by
  simp only [shapes, Shape.decodeAll, Shape.decode, Shape.width, List.drop_drop, ofFields?,
    ofBytes, flagAt, wordAt, dwordAt, List.drop_zero]

theorem ofBytes_encode (h : Header) (rest : List UInt8) : ofBytes (h.encode ++ rest) = h := by
  have hdecode := ofFields?_decodeAll (h.encode ++ rest)
  rw [← map_shape_fields h, encode, Shape.decodeAll_encodeAll, ofFields?_fields] at hdecode
  exact (Option.some.inj hdecode).symm

theorem load_ofBuffer {bs : List UInt8} (h : width ≤ bs.length) :
    load (.ofBuffer bs) = (some (ofBytes bs), ⟨bs, width⟩) := by
  have hroom : (Reader.ofBuffer bs).position + Shape.totalWidth shapes ≤
      (Reader.ofBuffer bs).buffer.length := by
    rw [totalWidth_shapes, Reader.ofBuffer, Nat.zero_add]
    exact h
  rw [load, Reader.getAll_eq hroom]
  simp only [Reader.ofBuffer, List.drop_zero, ofFields?_decodeAll, totalWidth_shapes,
    Nat.zero_add]

end Header

namespace Chip

/-- The bytes that a chip keeps for the game. -/
def contents (c : Chip) : List UInt8 := c.contents?.getD []

@[simp] theorem length_contents (c : Chip) : c.contents.length = c.size := by
  cases c <;> rfl

theorem encodeAll_snapshotFields (c : Chip) :
    Field.encodeAll c.snapshotFields = c.header.encode ++ c.contents := by
  simp [Field.encodeAll, snapshotFields, Header.encode, Field.encode, contents]

/-- A buffer of `snapshotSize` bytes takes the whole snapshot. -/
theorem save_blank (c : Chip) :
    c.save (.blank c.snapshotSize) = (true, ⟨c.header.encode ++ c.contents, c.snapshotSize⟩) := by
  have hwidth : Shape.totalWidth (c.snapshotFields.map Field.shape) = c.snapshotSize := by
    rw [← Field.length_encodeAll, encodeAll_snapshotFields, List.length_append,
      Header.length_encode, length_contents, snapshotSize]
  have hroom : (Writer.blank c.snapshotSize).position +
      Shape.totalWidth (c.snapshotFields.map Field.shape) ≤
        (Writer.blank c.snapshotSize).buffer.length := by
    simp [Writer.blank, hwidth]
  rw [save, Writer.putAll_eq hroom, encodeAll_snapshotFields, hwidth]
  simp [Writer.blank]

theorem snapshot_eq (c : Chip) : c.snapshot = c.header.encode ++ c.contents := by
  rw [snapshot, save_blank]

end Chip

end SaveChip
