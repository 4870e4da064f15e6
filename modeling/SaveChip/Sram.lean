import SaveChip.Chip.Kind
import SaveChip.Chip.Width
import SaveChip.Storage

/-! # Battery-backed RAM

The RAM has 32 KiB on a bus of eight bits, and its addresses repeat throughout the region it
is mapped to.  A wide read finds the same byte on every lane; a wide write stores the byte of
the lane that the address selects. -/

namespace SaveChip

structure Sram where
  storage : Storage
  dirty : Bool := false
deriving DecidableEq, Repr

namespace Sram

def capacity : Nat := Kind.sram.bytes

def fresh : Sram where
  storage := .erased capacity

/-- The place of an address in the storage. -/
def offset (address : UInt32) : Nat := address.toNat % capacity

def peek (s : Sram) (address : UInt32) : UInt8 := s.storage.byte (offset address)

def read (s : Sram) (width : Width) (address : UInt32) : UInt32 :=
  width.replicate (s.peek address)

/-- Sets a byte on behalf of a debugger, which the dirty flag does not record. -/
def poke (s : Sram) (address : UInt32) (value : UInt8) : Sram :=
  { s with storage := s.storage.setByte (offset address) value }

def write (s : Sram) (width : Width) (address value : UInt32) : Sram :=
  { s.poke address (width.lane address value) with dirty := true }

/-- Takes over the contents of a save file. -/
def loadFile (s : Sram) (bs : List UInt8) : Sram where
  storage := s.storage.overwrite bs

end Sram

end SaveChip
