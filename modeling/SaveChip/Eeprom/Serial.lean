import SaveChip.Eeprom.Basic
import SaveChip.Event

/-! # The serial line of the EEPROM

The game talks to the chip one bit at a time.  `clockIn` sends it a bit; `output` is the level
of the data line, and `clockOut` is the chip after the game has read that level once.

* A command is two bits.  `10` and `11` open a write and a read, `00` does nothing, and after
  `01` the chip is deaf until it is reset.
* The block address follows, the highest bit first; a read carries one more bit, which should
  be zero.
* A write goes on with 64 data bits and one last bit, which should be zero as well.  With it
  the chip turns busy for `busyCycles`.
* A read answers four zeros and 64 data bits.

No timer ends the busy period: the chip compares the clock with its deadline when the game
next uses the line while it is idle (`settle`), and until then it ignores what it is sent.

Beside each step that can report something stands the list of events it reports. -/

namespace SaveChip

/-- Cycles it takes to program a block. -/
def busyCycles : UInt64 := 0x1A750

/-- The end of a busy period that starts now; it stays at the last cycle the clock can show. -/
def busyUntil (now : UInt64) : UInt64 :=
  UInt64.ofNat (min (now.toNat + busyCycles.toNat) (UInt64.size - 1))

theorem toNat_busyUntil (now : UInt64) :
    (busyUntil now).toNat = min (now.toNat + busyCycles.toNat) (UInt64.size - 1) := by
  have h : min (now.toNat + busyCycles.toNat) (UInt64.size - 1) < UInt64.size :=
    Nat.lt_of_le_of_lt (Nat.min_le_right ..) (by decide)
  rw [busyUntil, UInt64.toNat_ofNat_of_lt' h]

namespace Eeprom

/-- Notices that the busy period is over. -/
def settle (e : Eeprom) (now : UInt64) : Eeprom :=
  if e.deadline ≤ now then { e with ready := true } else e

/-! ### Commands -/

/-- Takes a command bit; the second one opens a phase. -/
def decode (e : Eeprom) (now : UInt64) (bit : Bool) : Eeprom :=
  let e := e.settle now
  if !e.ready then
    e
  else if e.received = 0 then
    { e with address := 0, received := 1, command := bit.toNat }
  else
    let command := 2 * e.command + bit.toNat
    { e with address := 0, received := 0, command := command, phase := .ofCommand command }

def decodeEvents (e : Eeprom) (now : UInt64) (bit : Bool) : List Event :=
  if !(e.settle now).ready ∨ e.received = 0 then
    []
  else
    let command := 2 * e.command + bit.toNat
    (if command = 1 then [.undefinedCommand] else []) ++ [.command command (.ofCommand command)]

/-! ### Addresses -/

/-- The bits of an address phase: a read carries one more than the address. -/
def addressPhaseBits (e : Eeprom) (reading : Bool) : Nat :=
  e.capacity.addressBits + reading.toNat

/-- The address register with one more bit; it always makes room for the next. -/
def shiftedAddress (e : Eeprom) (bit : Bool) : UInt32 :=
  if e.received < e.capacity.addressBits then (e.address ||| bit.toUInt32) <<< 1 else e.address

/-- The block that the address register names once its last bit is in. -/
def finalAddress (e : Eeprom) (bit : Bool) : UInt32 :=
  (e.shiftedAddress bit >>> 1) &&& e.capacity.addressMask

def dataPhase (reading : Bool) : Phase := if reading then .readData else .writeData

def shiftAddress (e : Eeprom) (reading bit : Bool) : Eeprom :=
  if e.addressPhaseBits reading ≤ e.received then
    e
  else if e.received + 1 = e.addressPhaseBits reading then
    { e with address := e.finalAddress bit, received := 0, phase := dataPhase reading }
  else
    { e with address := e.shiftedAddress bit, received := e.received + 1 }

theorem shiftAddress_full {e : Eeprom} {reading : Bool}
    (h : e.addressPhaseBits reading ≤ e.received) (bit : Bool) :
    e.shiftAddress reading bit = e := if_pos h

theorem shiftAddress_last {e : Eeprom} {reading : Bool}
    (h : e.received + 1 = e.addressPhaseBits reading) (bit : Bool) :
    e.shiftAddress reading bit =
      { e with address := e.finalAddress bit, received := 0, phase := dataPhase reading } := by
  rw [shiftAddress, if_neg (by omega), if_pos h]

theorem shiftAddress_more {e : Eeprom} {reading : Bool}
    (h : e.received + 1 < e.addressPhaseBits reading) (bit : Bool) :
    e.shiftAddress reading bit =
      { e with address := e.shiftedAddress bit, received := e.received + 1 } := by
  rw [shiftAddress, if_neg (by omega), if_neg (by omega)]

def shiftAddressEvents (e : Eeprom) (reading bit : Bool) : List Event :=
  if e.received + 1 = e.addressPhaseBits reading then
    (if reading && bit then [.readUnterminated] else []) ++
      [.addressed (e.finalAddress bit) (dataPhase reading)]
  else
    []

/-! ### Data -/

/-- Stores a data bit; the bit after the last one ends the write. -/
def shiftIn (e : Eeprom) (now : UInt64) (bit : Bool) : Eeprom :=
  let storage :=
    if e.shifted < blockBits then e.storage.setBit e.block e.shifted bit else e.storage
  if e.shifted = blockBits then
    { e with
      storage := storage
      shifted := 0
      phase := .idle
      ready := false
      deadline := busyUntil now
      dirty := true }
  else
    { e with storage := storage, shifted := e.shifted + 1 }

theorem shiftIn_last {e : Eeprom} (h : e.shifted = blockBits) (now : UInt64) (bit : Bool) :
    e.shiftIn now bit =
      { e with
        shifted := 0
        phase := .idle
        ready := false
        deadline := busyUntil now
        dirty := true } := by
  have hdata : ¬e.shifted < blockBits := by omega
  rw [shiftIn, if_neg hdata, if_pos h]

theorem shiftIn_more {e : Eeprom} (h : e.shifted ≠ blockBits) (now : UInt64) (bit : Bool) :
    e.shiftIn now bit =
      { e with
        storage :=
          if e.shifted < blockBits then e.storage.setBit e.block e.shifted bit else e.storage
        shifted := e.shifted + 1 } := if_neg h

def shiftInEvents (e : Eeprom) (now : UInt64) (bit : Bool) : List Event :=
  if e.shifted = blockBits then
    (if bit then [.writeUnterminated] else []) ++ [.written e.address (busyUntil now)]
  else
    []

/-- The level of the data line while a block is being read. -/
def dataBit (e : Eeprom) : Bool :=
  if e.shifted < leadBits then false else e.storage.bit e.block (e.shifted - leadBits)

/-- Moves on to the next bit of the block; after the last one the chip is idle and ready. -/
def shiftOut (e : Eeprom) : Eeprom :=
  if e.shifted + 1 = leadBits + blockBits then
    { e with shifted := 0, phase := .idle, ready := true }
  else
    { e with shifted := e.shifted + 1 }

theorem shiftOut_last {e : Eeprom} (h : e.shifted + 1 = leadBits + blockBits) :
    e.shiftOut = { e with shifted := 0, phase := .idle, ready := true } := if_pos h

theorem shiftOut_more {e : Eeprom} (h : e.shifted + 1 ≠ leadBits + blockBits) :
    e.shiftOut = { e with shifted := e.shifted + 1 } := if_neg h

def shiftOutEvents (e : Eeprom) : List Event :=
  if e.shifted + 1 = leadBits + blockBits then [.blockRead e.address] else []

/-! ### The line -/

/-- A new chip starts with a reset. -/
def creationEvents : List Event := [.reset]

/-- Sends the chip a bit. -/
def clockIn (e : Eeprom) (now : UInt64) (bit : Bool) : Eeprom :=
  match e.phase with
  | .idle => e.decode now bit
  | .writeAddress => e.shiftAddress false bit
  | .readAddress => e.shiftAddress true bit
  | .writeData => e.shiftIn now bit
  | .readData | .invalid => e

def clockInEvents (e : Eeprom) (now : UInt64) (bit : Bool) : List Event :=
  match e.phase with
  | .idle => e.decodeEvents now bit
  | .writeAddress => e.shiftAddressEvents false bit
  | .readAddress => e.shiftAddressEvents true bit
  | .writeData => e.shiftInEvents now bit
  | .readData | .invalid => []

/-- The level of the data line: whether an idle chip is ready, or the next bit of a read. -/
def output (e : Eeprom) (now : UInt64) : Bool :=
  match e.phase with
  | .idle => (e.settle now).ready
  | .readData => e.dataBit
  | .writeData | .invalid | .writeAddress | .readAddress => false

/-- The chip after the game has read the data line. -/
def clockOut (e : Eeprom) (now : UInt64) : Eeprom :=
  match e.phase with
  | .idle => e.settle now
  | .readData => e.shiftOut
  | .writeData | .invalid | .writeAddress | .readAddress => e

def clockOutEvents (e : Eeprom) : List Event :=
  match e.phase with
  | .readData => e.shiftOutEvents
  | _ => []

end Eeprom

end SaveChip
