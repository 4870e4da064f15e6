import SaveChip.Chip.Kind
import SaveChip.Eeprom.Serial
import SaveChip.Sram

/-! # The backup chip of a cartridge

`Chip` is whichever chip the cartridge carries.  The bus reaches the RAM by address, the
serial line reaches the EEPROM bit by bit, and where a chip does not listen the processor reads
ones and its writes are lost.

A snapshot is the header followed by the storage.  `load` takes one from a reader and looks at
the whole header before it touches the chip: a snapshot that is rejected, or that ends too
soon, leaves the chip as it was. -/

namespace SaveChip

inductive Chip where
  | absent
  | sram (s : Sram)
  | eeprom (e : Eeprom)
deriving DecidableEq, Repr

namespace Chip

def fresh : Kind → Chip
  | .absent => absent
  | .sram => sram .fresh
  | .eeprom capacity => eeprom (.fresh capacity)

def kind : Chip → Kind
  | absent => .absent
  | sram _ => .sram
  | eeprom e => .eeprom e.capacity

/-! ### The bus -/

def read (c : Chip) (width : Width) (address : UInt32) : UInt32 :=
  match c with
  | sram s => s.read width address
  | absent | eeprom _ => width.openBus

def write (c : Chip) (width : Width) (address value : UInt32) : Chip :=
  match c with
  | sram s => sram (s.write width address value)
  | absent | eeprom _ => c

/-- Reads a byte on behalf of a debugger. -/
def peek (c : Chip) (address : UInt32) : UInt8 :=
  match c with
  | sram s => s.peek address
  | absent | eeprom _ => 0xFF

/-- Sets a byte on behalf of a debugger. -/
def poke (c : Chip) (address : UInt32) (value : UInt8) : Chip :=
  match c with
  | sram s => sram (s.poke address value)
  | absent | eeprom _ => c

/-! ### The serial line -/

/-- What the game reads from the line: a bit, or all ones where no chip answers. -/
def output (c : Chip) (now : UInt64) : UInt8 :=
  match c with
  | eeprom e => (e.output now).toUInt8
  | absent | sram _ => 0xFF

def clockOut (c : Chip) (now : UInt64) : Chip :=
  match c with
  | eeprom e => eeprom (e.clockOut now)
  | absent | sram _ => c

/-- Sends a value; only its lowest bit is on the line. -/
def clockIn (c : Chip) (now : UInt64) (value : UInt8) : Chip :=
  match c with
  | eeprom e => eeprom (e.clockIn now (bitAt value 0))
  | absent | sram _ => c

def reset (c : Chip) : Chip :=
  match c with
  | eeprom e => eeprom e.reset
  | absent | sram _ => c

/-! ### Storage -/

def storage? : Chip → Option Storage
  | absent => none
  | sram s => some s.storage
  | eeprom e => some e.storage

/-- What goes into the save file, if the chip keeps anything. -/
def contents? (c : Chip) : Option (List UInt8) := c.storage?.map Storage.toList

def size (c : Chip) : Nat := (c.storage?.map Storage.size).getD 0

/-- Takes over the contents of a save file. -/
def loadFile (c : Chip) (bs : List UInt8) : Chip :=
  match c with
  | absent => absent
  | sram s => sram (s.loadFile bs)
  | eeprom e => eeprom (e.loadFile bs)

/-- The game has written since the flag was last taken. -/
def dirty : Chip → Bool
  | absent => false
  | sram s => s.dirty
  | eeprom e => e.dirty

def clearDirty : Chip → Chip
  | absent => absent
  | sram s => sram { s with dirty := false }
  | eeprom e => eeprom { e with dirty := false }

/-! ### Snapshots -/

def header : Chip → Header
  | eeprom e => e.header
  | c => .idle c.kind.sizeMask

/-- The fields of a snapshot: the header, then the storage in one run. -/
def snapshotFields (c : Chip) : List Field :=
  c.header.fields ++ [.bytes (c.contents?.getD [])]

def snapshotSize (c : Chip) : Nat := Header.width + c.size

def save (c : Chip) (w : Writer) : Bool × Writer := w.putAll c.snapshotFields

/-- The snapshot of a chip fills a buffer of its `snapshotSize`. -/
def snapshot (c : Chip) : List UInt8 := (c.save (.blank c.snapshotSize)).2.buffer

/-- The chip with the registers a header records, if the header fits the chip. -/
def withHeader? (c : Chip) (h : Header) : Except SnapshotError Chip :=
  match c with
  | eeprom e =>
      match Registers.ofHeader? e.capacity h with
      | .ok r => .ok (eeprom { e with toRegisters := r })
      | .error x => .error x
  | absent | sram _ =>
      if h.sizeMask ≠ c.kind.sizeMask then
        .error (.sizeMaskMismatch c.kind.sizeMask h.sizeMask)
      else
        .ok c

def withContents (c : Chip) (bs : List UInt8) : Chip :=
  match c with
  | absent => absent
  | sram s => sram { s with storage := .ofList bs }
  | eeprom e => eeprom { e with storage := .ofList bs }

/-- How an attempt to load a snapshot ends. -/
inductive LoadOutcome where
  | loaded
  | rejected (error : SnapshotError)
  /-- The buffer ends before the snapshot does. -/
  | overrun
deriving DecidableEq, Repr

/-- Takes a snapshot from a reader.  The dirty flag stays: a snapshot is not a save file. -/
def load (c : Chip) (r : Reader) : LoadOutcome × Chip × Reader :=
  match Header.load r with
  | (none, r) => (.overrun, c, r)
  | (some h, r) =>
      match c.withHeader? h with
      | .error x => (.rejected x, c, r)
      | .ok c' =>
          match r.get (.bytes c.size) with
          | some (.bytes bs, r') => (.loaded, c'.withContents bs, r')
          | _ => (.overrun, c, r)

/-- Takes a snapshot that fills a buffer exactly. -/
def restore (c : Chip) (bs : List UInt8) : LoadOutcome × Chip :=
  if bs.length ≠ c.snapshotSize then
    (.rejected (.lengthMismatch c.snapshotSize bs.length), c)
  else
    let loaded := c.load (.ofBuffer bs)
    (loaded.1, loaded.2.1)

end Chip

end SaveChip
