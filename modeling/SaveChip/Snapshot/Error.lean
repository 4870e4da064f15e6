/-! # Why a snapshot is rejected

A snapshot is rejected for the first fault that is found in it.  The messages show masks and block
addresses in hexadecimal. -/

namespace SaveChip

/-- Lower-case hexadecimal digits without leading zeros. -/
def Numeral.hex (n : Nat) : String := "0x" ++ String.ofList (Nat.toDigits 16 n)

inductive SnapshotError where
  /-- The snapshot has the wrong length for the chip. -/
  | lengthMismatch (expected actual : Nat)
  /-- The snapshot was taken from a chip of another kind or capacity. -/
  | sizeMaskMismatch (expected actual : UInt32)
  /-- No phase has this code. -/
  | unknownPhase (code : UInt32)
  /-- A data phase names a block past the end of the storage. -/
  | addressOutOfRange (address : UInt32)
  /-- No sequence of bits leaves these counters in this phase. -/
  | transferOutOfRange (phase received shifted command : UInt32)
deriving DecidableEq, Repr

namespace SnapshotError

open Numeral (hex)

def message : SnapshotError → String
  | lengthMismatch expected actual => s!"save state is {actual} bytes, expected {expected}"
  | sizeMaskMismatch expected actual =>
      s!"save state size mask {hex actual.toNat} does not match chip mask {hex expected.toNat}"
  | unknownPhase code => s!"invalid EEPROM state code {code.toNat}"
  | addressOutOfRange address => s!"EEPROM block address {hex address.toNat} out of range"
  | transferOutOfRange phase received shifted command =>
      s!"EEPROM state {phase.toNat} cannot hold bit_offset {received.toNat}, " ++
        s!"bit_read {shifted.toNat}, next_state {command.toNat}"

end SnapshotError

end SaveChip
