/-! # EEPROM capacities

A serial chip holds 512 bytes or 8 KiB.  The capacity fixes how many address bits a command
carries; the large chip takes 14 of them and decodes the low 10. -/

namespace SaveChip

inductive Capacity where
  | small
  | large
deriving DecidableEq, Repr

namespace Capacity

def sizeMask : Capacity → UInt32
  | small => 0x1FF
  | large => 0x1FFF

/-- Only the mask of the small chip selects it. -/
def ofSizeMask (mask : UInt32) : Capacity := if mask = small.sizeMask then small else large

def bytes (c : Capacity) : Nat := c.sizeMask.toNat + 1

/-- Address bits on the wire. -/
def addressBits : Capacity → Nat
  | small => 6
  | large => 14

/-- Address bits that select a block. -/
def addressMask : Capacity → UInt32
  | small => 0x3F
  | large => 0x3FF

@[simp] theorem ofSizeMask_sizeMask (c : Capacity) : ofSizeMask c.sizeMask = c := by
  cases c <;> rfl

/-- Every block that the mask admits lies within the storage. -/
theorem blocks_fit (c : Capacity) : 8 * (c.addressMask.toNat + 1) = c.bytes := by
  cases c <;> rfl

end Capacity

end SaveChip
