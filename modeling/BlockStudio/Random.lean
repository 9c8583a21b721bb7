/-!
The random source of a play session: four 64-bit words, mixed by shifts and rotations
(xoshiro256++). A seed is spread over the words by eight outputs of a congruential generator whose
high bits choose a rotation (PCG32). A sample is a multiple of `2 ^ -53` in `[0, 1)`.
-/
namespace BlockStudio

structure Random where
  a : UInt64
  b : UInt64
  c : UInt64
  d : UInt64
deriving Repr, DecidableEq

namespace Random

def rotateLeft (x : UInt64) (k : UInt64) : UInt64 := x <<< k ||| x >>> (64 - k)

/-- The next state of the generator that spreads a seed. -/
def spreadNext (s : UInt64) : UInt64 := s * 6364136223846793005 + 11634580027462260723

/-- The 32 bits that a state of the spreading generator gives: the middle bits, rotated right by the
top five. -/
def spreadBits (s : UInt64) : UInt64 :=
  let x := (s >>> 18 ^^^ s) >>> 27 &&& 0xffffffff
  let k := s >>> 59
  (x >>> k ||| x <<< (32 - k)) &&& 0xffffffff

/-- The word from two states in a row, the first in the low half. -/
def spreadWord (s : UInt64) : UInt64 := spreadBits s ||| spreadBits (spreadNext s) <<< 32

def ofSeed (seed : UInt64) : Random :=
  let s₁ := spreadNext seed
  let s₂ := spreadNext (spreadNext s₁)
  let s₃ := spreadNext (spreadNext s₂)
  let s₄ := spreadNext (spreadNext s₃)
  ⟨spreadWord s₁, spreadWord s₂, spreadWord s₃, spreadWord s₄⟩

/-- The word the source gives now. -/
def word (r : Random) : UInt64 := rotateLeft (r.a + r.d) 23 + r.a

/-- The source after one word was taken. -/
def next (r : Random) : Random :=
  let c := r.c ^^^ r.a
  let d := r.d ^^^ r.b
  ⟨r.a ^^^ d, r.b ^^^ c, c ^^^ r.b <<< 17, rotateLeft d 45⟩

/-- The sample the source gives now, in `[0, 1)`. -/
def sample (r : Random) : Float :=
  (r.word >>> 11).toFloat / 9007199254740992

end Random

end BlockStudio
