import SaveChip.Proofs.Snapshot.Layout

/-! # Series of items on a buffer

An item is a field or a whole header.  A caller saves a series of items with a writer, one step
after another, and another caller who knows their shapes takes them out again with a reader.
`stepwise` goes through such a series whatever comes of each step, and notes where the cursor stands
after it.

While there is room, a step puts the bytes of its item at the position and leaves all others as they
are (`Writer.save_eq`), so a series leaves their concatenation (`Writer.stepwise_save`).  A reader that
stands before the bytes of an item finds this item and stops behind them (`Reader.load_eq`), and so it
finds a whole series again (`Reader.stepwise_load`). -/

namespace SaveChip

/-- What is saved in one step. -/
inductive Item where
  | field (f : Field)
  | header (h : Header)
deriving DecidableEq, Repr

/-- An item without its value. -/
inductive ItemShape where
  | field (s : Shape)
  | header
deriving DecidableEq, Repr

namespace ItemShape

def width : ItemShape → Nat
  | field s => s.width
  | header => 33

/-- The shapes of the fields that a reader goes through. -/
def shapes : ItemShape → List Shape
  | field s => [s]
  | header => Header.shapes

theorem totalWidth_shapes (x : ItemShape) : Shape.totalWidth x.shapes = x.width := by
  cases x with
  | field s => exact Nat.add_zero _
  | header => rfl

end ItemShape

namespace Item

def shape : Item → ItemShape
  | field f => .field f.shape
  | header _ => .header

def width (x : Item) : Nat := x.shape.width

/-- The fields that a writer goes through. -/
def fields : Item → List Field
  | field f => [f]
  | header h => h.fields

theorem map_shape_fields (x : Item) : x.fields.map Field.shape = x.shape.shapes := by
  cases x with
  | field f => rfl
  | header h => exact h.map_shape_fields

theorem length_encodeAll_fields (x : Item) : (Field.encodeAll x.fields).length = x.width := by
  rw [Field.length_encodeAll, map_shape_fields, ItemShape.totalWidth_shapes, width]

end Item

/-- What things of certain widths take together. -/
def total {α : Type} (width : α → Nat) (xs : List α) : Nat := xs.foldr (fun x n => width x + n) 0

theorem total_cons {α : Type} (width : α → Nat) (x : α) (xs : List α) :
    total width (x :: xs) = width x + total width xs := rfl

/-- Takes steps with a cursor one after another, whatever comes of each of them.  Notes what came of
a step and the position after it. -/
def stepwise {σ α β : Type} (step : σ → α → β × σ) (position : σ → Nat) (cursor : σ) :
    List α → List (β × Nat) × σ
  | [] => ([], cursor)
  | x :: xs =>
      let taken := step cursor x
      let later := stepwise step position taken.2 xs
      ((taken.1, position taken.2) :: later.1, later.2)

/-- The positions after items that follow one another. -/
def Item.ends (position : Nat) : List Item → List Nat
  | [] => []
  | x :: xs => (position + x.width) :: ends (position + x.width) xs

@[simp] theorem Item.length_ends (position : Nat) (items : List Item) :
    (ends position items).length = items.length := by
  induction items generalizing position with
  | nil => rfl
  | cons x items ih => simp [ends, ih]

theorem Field.encodeAll_append (fs gs : List Field) :
    encodeAll (fs ++ gs) = encodeAll fs ++ encodeAll gs := List.flatMap_append

theorem Item.length_encodeAll_flatMap (items : List Item) :
    (Field.encodeAll (items.flatMap fields)).length = total width items := by
  induction items with
  | nil => rfl
  | cons x items ih =>
      rw [List.flatMap_cons, Field.encodeAll_append, List.length_append, length_encodeAll_fields, ih,
        total_cons]

/-! ### Saving -/

namespace Writer

variable {w w' : Writer} {fs gs : List Field}

/-- Saves an item; says whether all of it fitted. -/
def save (w : Writer) : Item → Bool × Writer
  | .field f =>
      match w.put f with
      | some w' => (true, w')
      | none => (false, w)
  | .header h => h.save w

/-- The writer once the fields stand at its position. -/
def filled (w : Writer) (fs : List Field) : Writer where
  buffer := w.buffer.take w.position ++ Field.encodeAll fs ++
    w.buffer.drop (w.position + (Field.encodeAll fs).length)
  position := w.position + (Field.encodeAll fs).length

@[simp] theorem position_filled (w : Writer) (fs : List Field) :
    (w.filled fs).position = w.position + (Field.encodeAll fs).length := rfl

@[simp] theorem filled_nil (w : Writer) : w.filled [] = w := by
  simp [filled, Field.encodeAll]

theorem length_filled (h : w.position + (Field.encodeAll fs).length ≤ w.buffer.length) :
    (w.filled fs).buffer.length = w.buffer.length := by
  simp only [filled, List.length_append, List.length_take, List.length_drop]
  omega

theorem drop_filled (h : w.position + (Field.encodeAll fs).length ≤ w.buffer.length) :
    (w.filled fs).buffer.drop (w.filled fs).position = w.buffer.drop (w.filled fs).position := by
  have hfront : (w.buffer.take w.position ++ Field.encodeAll fs).length =
      w.position + (Field.encodeAll fs).length := by
    rw [List.length_append, List.length_take]
    omega
  exact List.drop_left' hfront

theorem putAll_filled (h : w.position + (Field.encodeAll fs).length ≤ w.buffer.length) :
    w.putAll fs = (true, w.filled fs) := by
  rw [Field.length_encodeAll] at h
  rw [putAll_eq h, filled, Field.length_encodeAll]

theorem putAll_append (h : w.putAll fs = (true, w')) : w.putAll (fs ++ gs) = w'.putAll gs := by
  induction fs generalizing w with
  | nil =>
      cases h
      rfl
  | cons f fs ih =>
      rw [List.cons_append, putAll]
      rw [putAll] at h
      cases hput : w.put f with
      | none =>
          rw [hput] at h
          cases h
      | some w₁ =>
          rw [hput] at h
          exact ih h

theorem filled_append
    (h : w.position + (Field.encodeAll (fs ++ gs)).length ≤ w.buffer.length) :
    (w.filled fs).filled gs = w.filled (fs ++ gs) := by
  have hboth := h
  rw [Field.encodeAll_append, List.length_append] at h
  have hfirst : w.position + (Field.encodeAll fs).length ≤ w.buffer.length := by omega
  have hsecond : (w.filled fs).position + (Field.encodeAll gs).length ≤
      (w.filled fs).buffer.length := by
    rw [length_filled hfirst, position_filled]
    omega
  have hput : w.putAll (fs ++ gs) = (w.filled fs).putAll gs := putAll_append (putAll_filled hfirst)
  rw [putAll_filled hboth, putAll_filled hsecond] at hput
  exact (congrArg Prod.snd hput).symm

theorem save_eq_putAll (w : Writer) (x : Item) : w.save x = w.putAll x.fields := by
  cases x with
  | header h => rfl
  | field f =>
      rw [save, Item.fields, putAll]
      cases w.put f <;> rfl

/-- An item is saved whole if there is room for it. -/
theorem save_eq {x : Item} (h : w.position + x.width ≤ w.buffer.length) :
    w.save x = (true, w.filled x.fields) := by
  rw [← x.length_encodeAll_fields] at h
  rw [save_eq_putAll, putAll_filled h]

/-- A series for which there is room is saved whole. -/
theorem stepwise_save {items : List Item}
    (h : w.position + total Item.width items ≤ w.buffer.length) :
    stepwise save position w items =
      ((Item.ends w.position items).map (true, ·), w.filled (items.flatMap Item.fields)) := by
  induction items generalizing w with
  | nil =>
      rw [List.flatMap_nil, filled_nil]
      rfl
  | cons x items ih =>
      rw [total_cons] at h
      have hx : w.position + x.width ≤ w.buffer.length := by omega
      have hposition : (w.filled x.fields).position = w.position + x.width := by
        rw [position_filled, Item.length_encodeAll_fields]
      have hlength : (w.filled x.fields).buffer.length = w.buffer.length :=
        length_filled (by rw [Item.length_encodeAll_fields]; exact hx)
      have hrest := ih (w := w.filled x.fields) (by rw [hposition, hlength]; omega)
      have hall : w.position + (Field.encodeAll (x.fields ++ items.flatMap Item.fields)).length ≤
          w.buffer.length := by
        rw [Field.encodeAll_append, List.length_append, Item.length_encodeAll_fields,
          Item.length_encodeAll_flatMap]
        omega
      rw [stepwise, save_eq hx]
      dsimp only
      rw [hrest, hposition, filled_append hall]
      rfl

end Writer

/-! ### Loading -/

namespace Reader

variable {r : Reader} {rest : List UInt8}

/-- Loads what has the given shape, if the buffer holds all of it. -/
def load (r : Reader) : ItemShape → Option Item × Reader
  | .field s =>
      match r.get s with
      | some (f, r') => (some (.field f), r')
      | none => (none, r)
  | .header => ((Header.load r).1.map .header, (Header.load r).2)

theorem le_of_drop_eq {bs : List UInt8} (hposition : r.position ≤ r.buffer.length)
    (h : r.buffer.drop r.position = bs ++ rest) : r.position + bs.length ≤ r.buffer.length := by
  have hlength := congrArg List.length h
  rw [List.length_drop, List.length_append] at hlength
  omega

/-- A reader that stands before the bytes of an item finds it and stops behind them. -/
theorem load_eq {x : Item} (hposition : r.position ≤ r.buffer.length)
    (h : r.buffer.drop r.position = Field.encodeAll x.fields ++ rest) :
    r.load x.shape = (some x, { r with position := r.position + x.width }) := by
  have hroom := le_of_drop_eq hposition h
  rw [Field.length_encodeAll] at hroom
  cases x with
  | field f =>
      have hbytes : Field.encodeAll [f] = f.encode := List.append_nil _
      have hlength : f.encode.length = f.shape.width := f.length_encode
      rw [Item.fields, hbytes] at h
      rw [Item.shape, load, get_eq hroom, h, List.take_left' hlength, f.decode_encode]
      rfl
  | header header =>
      have hfields := getAll_eq hroom
      rw [h, Item.fields, Shape.decodeAll_encodeAll, header.map_shape_fields] at hfields
      simp only [Item.shape, load, Header.load, hfields]
      rfl

/-- A reader that stands before the bytes of a series finds the whole series. -/
theorem stepwise_load {items : List Item} (hposition : r.position ≤ r.buffer.length)
    (h : r.buffer.drop r.position = Field.encodeAll (items.flatMap Item.fields) ++ rest) :
    stepwise load position r (items.map Item.shape) =
      ((items.map some).zip (Item.ends r.position items),
        { r with position := r.position + total Item.width items }) := by
  induction items generalizing r with
  | nil => rfl
  | cons x items ih =>
      rw [List.flatMap_cons, Field.encodeAll_append, List.append_assoc] at h
      have hx := load_eq hposition h
      have hroom := le_of_drop_eq hposition h
      rw [Item.length_encodeAll_fields] at hroom
      have hnext : r.buffer.drop (r.position + x.width) =
          Field.encodeAll (items.flatMap Item.fields) ++ rest := by
        rw [← List.drop_drop, h, List.drop_left' x.length_encodeAll_fields]
      have hrest := ih (r := { r with position := r.position + x.width }) hroom hnext
      rw [List.map_cons, stepwise, hx]
      dsimp only
      rw [hrest, total_cons, ← Nat.add_assoc]
      rfl

end Reader

/-- **A reader takes out what a writer put in.**  Let a buffer hold at least as many bytes as a series
of items takes together.  The writer saves every item, a reader over the buffer finds the same items
and stands after each of them where the writer stood, and the bytes behind the last one are those
that were there before. -/
theorem series_loaded {items : List Item} {original : List UInt8}
    (h : total Item.width items ≤ original.length) :
    let saved := stepwise Writer.save Writer.position ⟨original, 0⟩ items
    let loaded := stepwise Reader.load Reader.position (.ofBuffer saved.2.buffer)
      (items.map Item.shape)
    saved.1.map Prod.fst = List.replicate items.length true ∧
      loaded.1.map Prod.fst = items.map some ∧
      loaded.1.map Prod.snd = saved.1.map Prod.snd ∧
      saved.2.position = total Item.width items ∧ loaded.2.position = saved.2.position ∧
      saved.2.buffer.length = original.length ∧
      saved.2.buffer.drop saved.2.position = original.drop saved.2.position := by
  intro saved loaded
  have hroom : (⟨original, 0⟩ : Writer).position + total Item.width items ≤
      (⟨original, 0⟩ : Writer).buffer.length := by
    rw [Nat.zero_add]
    exact h
  have hsaved : saved = _ := Writer.stepwise_save hroom
  have hbytes : (Reader.ofBuffer saved.2.buffer).buffer.drop 0 =
      Field.encodeAll (items.flatMap Item.fields) ++
        original.drop (0 + (Field.encodeAll (items.flatMap Item.fields)).length) := by
    rw [hsaved]
    simp [Writer.filled, Reader.ofBuffer]
  have hloaded : loaded = _ := Reader.stepwise_load (Nat.zero_le _) hbytes
  rw [← Item.length_encodeAll_flatMap] at hroom
  have hlength := Writer.length_filled hroom
  have hbehind := Writer.drop_filled hroom
  rw [hloaded, hsaved]
  have hend := Item.length_encodeAll_flatMap items
  refine ⟨?_, ?_, ?_, ?_, ?_, hlength, hbehind⟩
  · simp [Function.comp_def, List.map_const']
  · exact List.map_fst_zip (by simp)
  · rw [List.map_snd_zip (by simp)]
    simp [Function.comp_def, Reader.ofBuffer]
  · rw [Writer.position_filled, hend, Nat.zero_add]
  · rw [Writer.position_filled, hend]
    rfl

/-- A raised flag, a header and an empty run of bytes in a buffer of ones, two bytes longer than they
are. -/
theorem series_loaded_mixed :
    let items : List Item :=
      [.field (.flag true), .header (.idle 0x1FF), .field (.bytes []), .field (.word 0xFFFFFFFF)]
    let original : List UInt8 := List.replicate 40 0xFF
    let saved := stepwise Writer.save Writer.position ⟨original, 0⟩ items
    total Item.width items ≤ original.length ∧
      saved.1 = [(true, 1), (true, 34), (true, 34), (true, 38)] ∧
      saved.2.buffer.drop 38 = [0xFF, 0xFF] ∧
      (stepwise Reader.load Reader.position (.ofBuffer saved.2.buffer)
        (items.map Item.shape)).1.map Prod.fst = items.map some := by
  intro items original saved
  have hroom : total Item.width items ≤ original.length := by decide
  obtain ⟨-, hitems, -⟩ := series_loaded hroom
  exact ⟨hroom, by decide, by decide, hitems⟩

end SaveChip
