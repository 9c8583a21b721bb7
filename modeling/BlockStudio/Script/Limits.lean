import BlockStudio.Number.Numeral
import BlockStudio.Text.Blank

/-!
Limits that keep scripts from running away: how often a loop may run, after how many rounds it hands
control back, and how deep calls and watchers may nest.
-/
namespace BlockStudio.Script

structure Limits where
  loopCeiling : Nat
  loopYieldInterval : Nat
  maxCallDepth : Nat
deriving Repr, DecidableEq

namespace Limits

def standard : Limits := ⟨10000, 100, 64⟩

/-- The whole number in a text, or a default when there is none. -/
def setting (text : Option String) (default : Nat) : Nat :=
  (text.bind fun s => Number.readCounter? (Text.trim s)).getD default

def clamp (n lo hi : Nat) : Nat := min (max n lo) hi

def ofEnvironment (env : String → Option String) : Limits where
  loopCeiling := max (setting (env "BLOCKPLAY_LOOP_CEILING") standard.loopCeiling) 1
  loopYieldInterval :=
    clamp (setting (env "BLOCKPLAY_LOOP_YIELD_INTERVAL") standard.loopYieldInterval) 1 1000000
  maxCallDepth := clamp (setting (env "BLOCKPLAY_MAX_CALL_DEPTH") standard.maxCallDepth) 1 1024

/-- Whether a loop that has run `done` rounds hands control back before the next one. It does so at
each multiple of the interval, once: `yieldedAt` is the round at which it last did. -/
def yieldsAt (interval done yieldedAt : Nat) : Bool :=
  !(interval == 0 || done == 0 || done % interval != 0 || yieldedAt == done)

/-- A loop of at most one interval never hands control back. The round at which the loop would hand
control back next is never reached. -/
theorem yieldsAt_of_le {interval times done : Nat} (yieldedAt : Nat)
    (hinterval : interval = 0 ∨ times ≤ interval) (h : done < times) :
    yieldsAt interval done yieldedAt = false := by
  rcases hinterval with hzero | hle
  · simp [yieldsAt, hzero]
  · have hmod : done % interval = done := Nat.mod_eq_of_lt (Nat.lt_of_lt_of_le h hle)
    by_cases hdone : done = 0
    · simp [yieldsAt, hdone]
    · simp [yieldsAt, hmod, hdone]

end Limits

end BlockStudio.Script
