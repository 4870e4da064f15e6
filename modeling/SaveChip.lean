import SaveChip.Chip.Request
import SaveChip.Clock
import SaveChip.Version
import SaveChip.Proofs.Chip.Reachable
import SaveChip.Proofs.Snapshot.Layout
import SaveChip.Proofs.Snapshot.Restore
import SaveChip.Proofs.Eeprom.Checked
import SaveChip.Proofs.Chip.Checked
import SaveChip.Proofs.Chip.Resume
import SaveChip.Proofs.Eeprom.Frame
import SaveChip.Proofs.Chip.WordArray
import SaveChip.Proofs.Storage.Overlay
import SaveChip.Proofs.Eeprom.Grammar
import SaveChip.Proofs.Chip.Parsing
import SaveChip.Proofs.Chip.BusyWindow
import SaveChip.Proofs.Chip.Settling
import SaveChip.Proofs.Chip.Dirty
import SaveChip.Proofs.Chip.HalfCommand
import SaveChip.Proofs.Chip.Cursors
import SaveChip.Proofs.Chip.Confinement
import SaveChip.Proofs.Chip.ByteArray
import SaveChip.Proofs.Snapshot.Overrun
import SaveChip.Proofs.Chip.Interleaving
import SaveChip.Proofs.Chip.Transfers
import SaveChip.Proofs.Chip.TornWrite
import SaveChip.Proofs.Snapshot.Loading
import SaveChip.Proofs.Snapshot.Canonical
import SaveChip.Proofs.Chip.Marking
import SaveChip.Proofs.Chip.Delay
import SaveChip.Proofs.Chip.PowerCycle
import SaveChip.Proofs.Chip.Erasure
import SaveChip.Proofs.Log.Line
import SaveChip.Proofs.Chip.Ledger
