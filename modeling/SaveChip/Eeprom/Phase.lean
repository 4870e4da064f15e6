import SaveChip.Eeprom.Capacity

/-! # Phases of the serial protocol

A transfer goes from `idle` through an address phase to a data phase and back.  The undefined
command leads to `invalid`, which only a reset leaves.  Each phase has a code in the snapshot
header, and bounds on the two bit counters that hold while it lasts. -/

namespace SaveChip

/-- Data bits in a block. -/
def blockBits : Nat := 64

/-- Zeros sent before the data of a read. -/
def leadBits : Nat := 4

inductive Phase where
  | idle
  | writeData
  | readData
  | invalid
  | writeAddress
  | readAddress
deriving DecidableEq, Repr

namespace Phase

def code : Phase → UInt32
  | idle => 0
  | writeData => 2
  | readData => 3
  | invalid => 5
  | writeAddress => 6
  | readAddress => 7

def ofCode? (code : UInt32) : Option Phase :=
  if code = 0 then some idle
  else if code = 2 then some writeData
  else if code = 3 then some readData
  else if code = 5 then some invalid
  else if code = 6 then some writeAddress
  else if code = 7 then some readAddress
  else none

def name : Phase → String
  | idle => "Idle"
  | writeData => "WriteData"
  | readData => "ReadData"
  | invalid => "Invalid"
  | writeAddress => "WriteAddress"
  | readAddress => "ReadAddress"

/-- The phase that a command of two bits opens. -/
def ofCommand : Nat → Phase
  | 0 => idle
  | 1 => invalid
  | 2 => writeAddress
  | _ => readAddress

/-- The phases in which data bits move, and the block address is final. -/
def transfersData : Phase → Bool
  | writeData | readData => true
  | _ => false

/-- The most command or address bits that a chip waiting in this phase has received. -/
def maxReceived (c : Capacity) : Phase → Nat
  | idle => 1
  | writeAddress => c.addressBits - 1
  | readAddress => c.addressBits
  | writeData | readData | invalid => 0

/-- The most data bits that a chip waiting in this phase has shifted. -/
def maxShifted : Phase → Nat
  | writeData => blockBits
  | readData => leadBits + blockBits - 1
  | idle | writeAddress | readAddress | invalid => 0

/-- The largest command register: a command of which one bit has arrived is that bit. -/
def maxCommand (received : Nat) : Phase → Nat
  | idle => if received = 1 then 1 else 3
  | _ => 3

@[simp] theorem ofCode?_code (p : Phase) : ofCode? p.code = some p := by
  cases p <;> rfl

theorem code_of_ofCode? {code : UInt32} {p : Phase} (h : ofCode? code = some p) :
    p.code = code := by
  unfold ofCode? at h
  grind [Phase.code]

/-- No command opens a data phase. -/
theorem ne_ofCommand {p : Phase} (hp : p.transfersData = true) (command : Nat) :
    p ≠ ofCommand command := by
  rintro rfl
  unfold ofCommand at hp
  split at hp <;> cases hp

end Phase

end SaveChip
