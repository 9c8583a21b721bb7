/-!
Movements of the mouse wheel that wait for a frame to use them. What no frame has used is kept over
one turn of the queue, which the next frame after a beat of the clock takes, and dropped at the
second.
-/
namespace BlockStudio

structure WheelQueue where
  older : List Float32
  recent : List Float32
  /-- Whether there was a beat since the last turn. -/
  turnDue : Bool

namespace WheelQueue

def empty : WheelQueue := ⟨[], [], false⟩

def push (q : WheelQueue) (y : Float32) : WheelQueue := { q with recent := q.recent ++ [y] }

/-- Takes the turn that is due at the start of a frame. -/
def turn (q : WheelQueue) : WheelQueue := if q.turnDue then ⟨q.recent, [], false⟩ else q

/-- Notes whether a frame had a beat. -/
def noteBeat (q : WheelQueue) (beat : Bool) : WheelQueue := { q with turnDue := q.turnDue || beat }

/-- All movements in order, and the queue without them. -/
def take (q : WheelQueue) : List Float32 × WheelQueue :=
  (q.older ++ q.recent, { q with older := [], recent := [] })

end WheelQueue

end BlockStudio
