/-! # The cycle counter

The processor counts its cycles in a 64-bit counter that wraps.  A chip never moves a clock:
every operation that depends on time takes the reading `now` as an argument. -/

namespace SaveChip

structure Clock where
  cycles : UInt64
deriving DecidableEq, Repr

namespace Clock

def start : Clock := ⟨0⟩

def advance (c : Clock) (n : UInt64) : Clock := ⟨c.cycles + n⟩

/-- Moves the counter, as when a snapshot is restored. -/
def set (_ : Clock) (n : UInt64) : Clock := ⟨n⟩

/-- What a chip on this clock reads. -/
def now (c : Clock) : UInt64 := c.cycles

end Clock

end SaveChip
