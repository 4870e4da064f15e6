import SaveChip.Chip.Request
import SaveChip.Clock

/-! # Backup storage of a cartridge

A cartridge keeps saved games on a backup chip.  When a cartridge is put in, the machine makes the
chip that it carries, and sends it every access to the backup region and to the serial line for the
rest of the session.

* **Chips** (`Chip`).  A RAM (`Sram`) is 32 KiB on the bus.  An EEPROM (`Eeprom`) has 512 or 8192
  bytes behind a serial line, in blocks of 64 bits, and takes some time to program a block.  A
  cartridge may also carry no chip; what the machine reads is then ones.
* **Requests** (`Request`).  The game uses the bus and the line, a debugger looks at bytes and sets
  them, and the host takes care of the save file and of snapshots.  `Chip.respond` answers a request
  and gives the chip that it leaves, `Chip.run` does so for a series of requests.
* **Time** (`Clock`).  No chip runs on its own.  A request comes with the reading of a clock, and an
  EEPROM that has been programming a block notices with a request that it is done.
* **Save files and snapshots.**  A save file is the contents of a chip and nothing else
  (`Chip.contents?`, `Chip.loadFile`).  A snapshot has a header in front of them with the registers
  of the serial line, so that a transfer can go on where it was (`Chip.snapshot`, `Chip.restore`).
* **The log** (`Chip.runEvents`).  What happens inside a chip is reported as events, each of which
  is a line with a level. -/

namespace SaveChip

/-- The release that this describes. -/
def version : String := "0.1.0"

end SaveChip
