import SaveChip.Snapshot.Field

/-! # Cursors over a snapshot buffer

A `Writer` fills a buffer of fixed length from the front and a `Reader` takes one apart.
Both hold a position, and both treat a field as a whole: one that runs past the end of the
buffer leaves buffer and position as they were, and the cursor stays usable.

`putAll` and `getAll` go through a sequence of fields and stop before the first that does
not fit, so the position afterwards is the end of the last whole field. -/

namespace SaveChip

structure Writer where
  buffer : List UInt8
  position : Nat
deriving DecidableEq, Repr

namespace Writer

/-- A writer at the start of `n` zero bytes. -/
def blank (n : Nat) : Writer := ⟨List.replicate n 0, 0⟩

/-- Writes a field at the position, unless it runs past the end. -/
def put (w : Writer) (f : Field) : Option Writer :=
  if w.position + f.width ≤ w.buffer.length then
    some
      { buffer := w.buffer.take w.position ++ f.encode ++ w.buffer.drop (w.position + f.width)
        position := w.position + f.width }
  else
    none

/-- Writes fields in order, up to the first that does not fit; says whether all of them did. -/
def putAll (w : Writer) : List Field → Bool × Writer
  | [] => (true, w)
  | f :: fs =>
      match w.put f with
      | some w' => w'.putAll fs
      | none => (false, w)

theorem put_eq_none_iff {w : Writer} {f : Field} :
    w.put f = none ↔ w.buffer.length < w.position + f.width := by
  unfold put
  split <;> simp <;> omega

theorem length_buffer_put {w w' : Writer} {f : Field} (h : w.put f = some w') :
    w'.buffer.length = w.buffer.length := by
  unfold put at h
  split at h
  · cases h
    simp
    omega
  · cases h

theorem position_put {w w' : Writer} {f : Field} (h : w.put f = some w') :
    w'.position = w.position + f.width := by
  unfold put at h
  split at h
  · cases h
    rfl
  · cases h

end Writer

structure Reader where
  buffer : List UInt8
  position : Nat
deriving DecidableEq, Repr

namespace Reader

/-- A reader at the start of a buffer. -/
def ofBuffer (buffer : List UInt8) : Reader := ⟨buffer, 0⟩

/-- Reads a field at the position, unless it runs past the end. -/
def get (r : Reader) (s : Shape) : Option (Field × Reader) :=
  if r.position + s.width ≤ r.buffer.length then
    some (s.decode ((r.buffer.drop r.position).take s.width),
      { r with position := r.position + s.width })
  else
    none

/-- Reads fields in order, up to the first that does not fit. -/
def getAll (r : Reader) : List Shape → List Field × Reader
  | [] => ([], r)
  | s :: ss =>
      match r.get s with
      | some (f, r') =>
          let rest := r'.getAll ss
          (f :: rest.1, rest.2)
      | none => ([], r)

theorem get_eq_none_iff {r : Reader} {s : Shape} :
    r.get s = none ↔ r.buffer.length < r.position + s.width := by
  unfold get
  split <;> simp <;> omega

theorem buffer_get {r r' : Reader} {s : Shape} {f : Field} (h : r.get s = some (f, r')) :
    r'.buffer = r.buffer := by
  unfold get at h
  split at h
  · cases h
    rfl
  · cases h

theorem position_get {r r' : Reader} {s : Shape} {f : Field} (h : r.get s = some (f, r')) :
    r'.position = r.position + s.width := by
  unfold get at h
  split at h
  · cases h
    rfl
  · cases h

/-- A field read has the shape that was asked for. -/
theorem shape_get {r r' : Reader} {s : Shape} {f : Field} (h : r.get s = some (f, r')) :
    f.shape = s := by
  unfold get at h
  split at h
  · cases h
    exact s.shape_decode (by simp; omega)
  · cases h

end Reader

end SaveChip
