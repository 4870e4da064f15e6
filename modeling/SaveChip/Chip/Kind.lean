import SaveChip.Eeprom.Capacity

/-! # Kinds of backup chip

A cartridge carries at most one backup chip. -/

namespace SaveChip

inductive Kind where
  | absent
  | sram
  | eeprom (capacity : Capacity)
deriving DecidableEq, Repr

namespace Kind

/-- The storage of a chip of this kind, in bytes. -/
def bytes : Kind → Nat
  | absent => 0
  | sram => 0x8000
  | eeprom capacity => capacity.bytes

/-- The size mask in the snapshots of this kind. -/
def sizeMask : Kind → UInt32
  | absent => 0
  | sram => 0x7FFF
  | eeprom capacity => capacity.sizeMask

def name : Kind → String
  | absent => "None"
  | sram => "SRAM"
  | eeprom capacity => s!"EEPROM ({capacity.bytes} bytes)"

end Kind

end SaveChip
