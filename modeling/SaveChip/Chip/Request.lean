import SaveChip.Chip.Basic

/-! # Requests and replies

Everything the machine and its host ask of a chip is a `Request`.  `respond` answers one at a
clock reading and gives the chip afterwards; `events` lists what the chip reports meanwhile.
`run` answers a sequence of requests, each at a reading of its own. -/

namespace SaveChip

inductive Request where
  | kind
  | read (width : Width) (address : UInt32)
  | write (width : Width) (address value : UInt32)
  | peek (address : UInt32)
  | poke (address : UInt32) (value : UInt8)
  /-- A cycle passes; no chip runs on its own. -/
  | tick
  | reset
  | readBit
  | writeBit (value : UInt8)
  | contents
  | loadFile (bs : List UInt8)
  /-- Asks for the dirty flag and lowers it. -/
  | takeDirty
  | snapshotSize
  | snapshot
  | restore (bs : List UInt8)
  /-- Saves a snapshot into a zeroed buffer of the given length. -/
  | saveInto (length : Nat)
  /-- Loads a snapshot from the front of a buffer. -/
  | loadFrom (buffer : List UInt8)
deriving DecidableEq, Repr

inductive Reply where
  | done
  | kind (kind : Kind)
  | value (value : UInt32)
  | contents (bs : Option (List UInt8))
  | dirty (flag : Bool)
  | size (bytes : Nat)
  | snapshot (bs : List UInt8)
  | restored (outcome : Chip.LoadOutcome)
  | saved (complete : Bool) (w : Writer)
  | loaded (outcome : Chip.LoadOutcome) (position : Nat)
deriving DecidableEq, Repr

namespace Chip

def respond (c : Chip) (now : UInt64) : Request → Reply × Chip
  | .kind => (.kind c.kind, c)
  | .read width address => (.value (c.read width address), c)
  | .write width address value => (.done, c.write width address value)
  | .peek address => (.value (c.peek address).toUInt32, c)
  | .poke address value => (.done, c.poke address value)
  | .tick => (.done, c)
  | .reset => (.done, c.reset)
  | .readBit => (.value (c.output now).toUInt32, c.clockOut now)
  | .writeBit value => (.done, c.clockIn now value)
  | .contents => (.contents c.contents?, c)
  | .loadFile bs => (.done, c.loadFile bs)
  | .takeDirty => (.dirty c.dirty, c.clearDirty)
  | .snapshotSize => (.size c.snapshotSize, c)
  | .snapshot => (.snapshot c.snapshot, c)
  | .restore bs => (.restored (c.restore bs).1, (c.restore bs).2)
  | .saveInto length => (.saved (c.save (.blank length)).1 (c.save (.blank length)).2, c)
  | .loadFrom buffer =>
      let loaded := c.load (.ofBuffer buffer)
      (.loaded loaded.1 loaded.2.2.position, loaded.2.1)

/-- A save file of the wrong length is reported, and used as far as it goes. -/
def loadFileEvents (c : Chip) (bs : List UInt8) : List Event :=
  match c with
  | absent => []
  | sram _ => if bs.length ≠ Sram.capacity then [.ramFileLength bs.length] else []
  | eeprom e =>
      if bs.length ≠ e.storage.size then [.eepromFileLength bs.length e.storage.size] else []

def events (c : Chip) (now : UInt64) : Request → List Event
  | .loadFile bs => c.loadFileEvents bs
  | .reset =>
      match c with
      | eeprom _ => [.reset]
      | absent | sram _ => []
  | .readBit =>
      match c with
      | eeprom e => e.clockOutEvents
      | absent | sram _ => []
  | .writeBit value =>
      match c with
      | eeprom e => e.clockInEvents now (bitAt value 0)
      | absent | sram _ => []
  | _ => []

/-- What is reported when a chip of this kind is made. -/
def creationEvents : Kind → List Event
  | .eeprom capacity => .created (.eeprom capacity) :: Eeprom.creationEvents
  | kind => [.created kind]

/-! ### Runs -/

def run (c : Chip) : List (UInt64 × Request) → List Reply × Chip
  | [] => ([], c)
  | (now, request) :: rest =>
      let answer := c.respond now request
      let later := answer.2.run rest
      (answer.1 :: later.1, later.2)

def runEvents (c : Chip) : List (UInt64 × Request) → List Event
  | [] => []
  | (now, request) :: rest => c.events now request ++ (c.respond now request).2.runEvents rest

theorem run_append (c : Chip) (xs ys : List (UInt64 × Request)) :
    c.run (xs ++ ys) = ((c.run xs).1 ++ ((c.run xs).2.run ys).1, ((c.run xs).2.run ys).2) := by
  induction xs generalizing c with
  | nil => rfl
  | cons x xs ih => simp [run, ih]

theorem runEvents_append (c : Chip) (xs ys : List (UInt64 × Request)) :
    c.runEvents (xs ++ ys) = c.runEvents xs ++ (c.run xs).2.runEvents ys := by
  induction xs generalizing c with
  | nil => rfl
  | cons x xs ih => simp [run, runEvents, ih]

end Chip

end SaveChip
