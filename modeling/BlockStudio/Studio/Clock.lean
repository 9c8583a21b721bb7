import BlockStudio.Number.Binary

/-!
The clock of a program that runs in frames. The first frame takes no time, and no frame takes more
than a quarter of a second. Next to the frames runs a steady beat of 64 times a second.
-/
namespace BlockStudio

structure Clock where
  /-- Whether there was a frame. -/
  running : Bool
  /-- The nanoseconds since the last beat. -/
  sinceBeat : Nat
deriving Repr, DecidableEq

namespace Clock

def start : Clock := ⟨false, 0⟩

/-- The greatest time of a frame in nanoseconds. -/
def frameLimit : Nat := 250000000

/-- The nanoseconds from beat to beat. -/
def beatLength : Nat := 15625000

/-- The nanoseconds that the next frame takes when `elapsed` have passed outside. -/
def frameTime (c : Clock) (elapsed : Nat) : Nat := if c.running then min elapsed frameLimit else 0

/-- Whether there is a beat in a frame that takes `time`. -/
def beats (c : Clock) (time : Nat) : Bool := beatLength ≤ c.sinceBeat + time

/-- The clock after a frame that took `time`. -/
def after (c : Clock) (time : Nat) : Clock := ⟨true, (c.sinceBeat + time) % beatLength⟩

def seconds (time : Nat) : Float := Number.doubleOfNat time / 1000000000

def secondsSingle (time : Nat) : Float32 := Number.singleOfNat time / 1000000000

end Clock

end BlockStudio
