import SaveChip.Snapshot.Cursor

/-! # The snapshot header

Every snapshot opens with the same header of 33 bytes: the ready flag, six words, and the
cycle at which a busy chip becomes ready.  A chip without a serial line has nothing in flight
and writes an idle header that carries only its size mask.

A header is saved and loaded field by field (`fields`, `shapes`), so on a short buffer both
cursors end after its last whole field. -/

namespace SaveChip

structure Header where
  ready : Bool
  sizeMask : UInt32
  received : UInt32
  shifted : UInt32
  address : UInt32
  phase : UInt32
  command : UInt32
  deadline : UInt64
deriving DecidableEq, Repr

namespace Header

/-- The header of a chip that is ready, with every counter at zero. -/
def idle (sizeMask : UInt32) : Header where
  ready := true
  sizeMask := sizeMask
  received := 0
  shifted := 0
  address := 0
  phase := 0
  command := 0
  deadline := 0

def fields (h : Header) : List Field :=
  [.flag h.ready, .word h.sizeMask, .word h.received, .word h.shifted, .word h.address,
    .word h.phase, .word h.command, .dword h.deadline]

def shapes : List Shape :=
  [.flag, .word, .word, .word, .word, .word, .word, .dword]

def ofFields? : List Field → Option Header
  | [.flag ready, .word sizeMask, .word received, .word shifted, .word address, .word phase,
      .word command, .dword deadline] =>
      some { ready, sizeMask, received, shifted, address, phase, command, deadline }
  | _ => none

/-- The bytes of every header. -/
def width : Nat := shapes.foldr (fun s n => s.width + n) 0

def save (h : Header) (w : Writer) : Bool × Writer := w.putAll h.fields

/-- The header at the position, if the buffer holds all of it. -/
def load (r : Reader) : Option Header × Reader :=
  let taken := r.getAll shapes
  (ofFields? taken.1, taken.2)

theorem width_eq : width = 33 := rfl

@[simp] theorem ofFields?_fields (h : Header) : ofFields? h.fields = some h := rfl

theorem map_shape_fields (h : Header) : h.fields.map Field.shape = shapes := rfl

end Header

end SaveChip
