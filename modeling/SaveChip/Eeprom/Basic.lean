import SaveChip.Eeprom.Phase
import SaveChip.Snapshot.Error
import SaveChip.Snapshot.Header
import SaveChip.Storage

/-! # The serial EEPROM

The chip is a set of protocol registers over its storage, with a dirty flag that tells the
host whether the game has written a block since it last asked.  A reset puts the registers
into their power-on state and touches neither storage nor flag.

The registers are what a snapshot header records.  `Registers.ofHeader?` reads them back and
refuses a header that names no phase, a block past the end, or counters that do not occur in
its phase. -/

namespace SaveChip

/-- The protocol registers; the defaults are the power-on state. -/
structure Registers where
  /-- No block is being programmed, as far as the chip has noticed. -/
  ready : Bool := true
  /-- Command or address bits received so far. -/
  received : Nat := 0
  /-- Data bits moved so far, the zeros before a read and the bit after a write included. -/
  shifted : Nat := 0
  address : UInt32 := 0
  phase : Phase := .idle
  /-- The value of the command bits received last. -/
  command : Nat := 0
  /-- The cycle at which the block being programmed is done. -/
  deadline : UInt64 := 0
deriving DecidableEq, Repr

namespace Registers

def toHeader (r : Registers) (capacity : Capacity) : Header where
  ready := r.ready
  sizeMask := capacity.sizeMask
  received := UInt32.ofNat r.received
  shifted := UInt32.ofNat r.shifted
  address := r.address
  phase := r.phase.code
  command := UInt32.ofNat r.command
  deadline := r.deadline

/-- The registers a header records, for a chip of the given capacity. -/
def ofHeader? (capacity : Capacity) (h : Header) : Except SnapshotError Registers :=
  if h.sizeMask ≠ capacity.sizeMask then
    .error (.sizeMaskMismatch capacity.sizeMask h.sizeMask)
  else
    match Phase.ofCode? h.phase with
    | none => .error (.unknownPhase h.phase)
    | some phase =>
        if phase.transfersData ∧ capacity.addressMask < h.address then
          .error (.addressOutOfRange h.address)
        else if phase.maxReceived capacity < h.received.toNat ∨
            phase.maxShifted < h.shifted.toNat ∨
            phase.maxCommand h.received.toNat < h.command.toNat then
          .error (.transferOutOfRange h.phase h.received h.shifted h.command)
        else
          .ok
            { ready := h.ready
              received := h.received.toNat
              shifted := h.shifted.toNat
              address := h.address
              phase := phase
              command := h.command.toNat
              deadline := h.deadline }

end Registers

structure Eeprom extends Registers where
  capacity : Capacity
  storage : Storage
  dirty : Bool := false
deriving DecidableEq, Repr

namespace Eeprom

/-- A chip as it leaves the factory: erased, idle, with nothing to save. -/
def fresh (capacity : Capacity) : Eeprom where
  capacity := capacity
  storage := .erased capacity.bytes

def reset (e : Eeprom) : Eeprom := { e with toRegisters := {} }

/-- The block that a data phase works on. -/
def block (e : Eeprom) : Nat := e.address.toNat

def header (e : Eeprom) : Header := e.toRegisters.toHeader e.capacity

/-- Takes over the contents of a save file; a transfer in flight goes on. -/
def loadFile (e : Eeprom) (bs : List UInt8) : Eeprom :=
  { e with storage := e.storage.overwrite bs, dirty := false }

end Eeprom

end SaveChip
