import SaveChip.Chip.Kind
import SaveChip.Eeprom.Phase
import SaveChip.Snapshot.Error

/-! # What a chip reports

An event records one thing that happened inside a chip.  Its level says how much attention it
deserves, its message is the line for the log.  A command is shown in binary. -/

namespace SaveChip

/-- Binary digits, with zeros in front up to `width` of them. -/
def Numeral.binary (width n : Nat) : String :=
  String.ofList ((Nat.toDigits 2 n).leftpad width '0')

inductive Level where
  | trace
  | debug
  | info
  | warn
deriving DecidableEq, Repr

def Level.name : Level → String
  | trace => "TRACE"
  | debug => "DEBUG"
  | info => "INFO"
  | warn => "WARN"

inductive Event where
  | created (kind : Kind)
  | reset
  /-- A whole command arrived and opened a phase. -/
  | command (value : Nat) (phase : Phase)
  | undefinedCommand
  /-- A whole block address arrived and opened a data phase. -/
  | addressed (block : UInt32) (phase : Phase)
  | readUnterminated
  | written (block : UInt32) (deadline : UInt64)
  | writeUnterminated
  | blockRead (block : UInt32)
  | ramFileLength (length : Nat)
  | eepromFileLength (length size : Nat)
deriving DecidableEq, Repr

namespace Event

open Numeral (hex binary)

def level : Event → Level
  | created _ => .info
  | reset | written .. | blockRead _ => .debug
  | command .. | addressed .. => .trace
  | undefinedCommand | readUnterminated | writeUnterminated | ramFileLength _
  | eepromFileLength .. => .warn

def message : Event → String
  | created .absent => "No backup chip, backup region unmapped"
  | created .sram => s!"Creating SRAM backup ({Kind.sram.bytes} bytes)"
  | created (.eeprom capacity) => s!"Creating serial EEPROM backup ({capacity.bytes} bytes)"
  | reset => "EEPROM reset"
  | command value phase => s!"EEPROM command {binary 2 value} -> {phase.name}"
  | undefinedCommand => "EEPROM command 01 is undefined, chip stops responding until reset"
  | addressed block phase => s!"EEPROM block {hex block.toNat} -> {phase.name}"
  | readUnterminated => "EEPROM read address not terminated by 0"
  | written block deadline =>
      s!"EEPROM block {hex block.toNat} written, busy until cycle {deadline.toNat}"
  | writeUnterminated => "EEPROM write not terminated by 0"
  | blockRead block => s!"EEPROM block {hex block.toNat} read"
  | ramFileLength length => s!"Save RAM file is {length} bytes, expected {Kind.sram.bytes}"
  | eepromFileLength length size => s!"EEPROM save is {length} bytes, chip holds {size}"

end Event

end SaveChip
