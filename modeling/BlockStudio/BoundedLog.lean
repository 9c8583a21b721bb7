import BlockStudio.Number.Counter

/-!
Logs that keep a limited number of latest entries and count those they dropped. The main lemma says
that what is kept after pushing some entries is a suffix of them.
-/
namespace BlockStudio

structure BoundedLog (α : Type) (limit : Nat) where
  entries : List α
  dropped : Nat
  bounded : entries.length ≤ limit

namespace BoundedLog

variable {α : Type} {limit : Nat}

def empty : BoundedLog α limit := ⟨[], 0, Nat.zero_le _⟩

instance : Inhabited (BoundedLog α limit) := ⟨empty⟩

/-- The last `limit` entries of a list. -/
def latest (limit : Nat) (es : List α) : List α := es.drop (es.length - limit)

theorem latest_length (limit : Nat) (es : List α) : (latest limit es).length ≤ limit := by
  simp only [latest, List.length_drop]
  omega

/-- Adds an entry at the end; the oldest entries go when there are too many. -/
def push (l : BoundedLog α limit) (a : α) : BoundedLog α limit :=
  let es := l.entries ++ [a]
  ⟨latest limit es, Number.countUp l.dropped (es.length - limit), latest_length limit es⟩

@[simp] theorem entries_push (l : BoundedLog α limit) (a : α) :
    (l.push a).entries = latest limit (l.entries ++ [a]) := rfl

theorem entries_foldl_push_empty (h : 0 < limit) (a? : Option α) :
    (a?.toList.foldl push (empty : BoundedLog α limit)).entries = a?.toList := by
  obtain ⟨n, rfl⟩ : ∃ n, limit = n + 1 := ⟨limit - 1, by omega⟩
  cases a? <;> simp [empty, latest]

/-- The log of what the entries become under a function. -/
def map {β : Type} (f : α → β) (l : BoundedLog α limit) : BoundedLog β limit :=
  ⟨l.entries.map f, l.dropped, by simpa using l.bounded⟩

theorem map_push {β : Type} (f : α → β) (l : BoundedLog α limit) (a : α) :
    (l.push a).map f = (l.map f).push (f a) := by
  simp [map, push, latest]

theorem map_foldl_push {β : Type} (f : α → β) (l : BoundedLog α limit) (as : List α) :
    (as.foldl push l).map f = (as.map f).foldl push (l.map f) := by
  induction as generalizing l with
  | nil => rfl
  | cons a as ih => rw [List.foldl_cons, ih, map_push, List.map_cons, List.foldl_cons]

/-- The number of entries that were ever pushed. -/
def total (l : BoundedLog α limit) : Nat := l.dropped + l.entries.length

end BoundedLog

end BlockStudio
