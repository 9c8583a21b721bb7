import BlockStudio.Proofs.Bindings
import BlockStudio.Script.State
import Mathlib

/-!
What logs with a limit hold after many entries. Main statement: the event bus and the log of faults
keep exactly the last entries, in order, and count all others, and the summary of the bus counts
each kind of the kept events.
-/
namespace BlockStudio

namespace BoundedLog
variable {α : Type} {limit : Nat} {l : BoundedLog α limit} {es : List α}

theorem latest_suffix (limit : Nat) (es : List α) : latest limit es <:+ es := List.drop_suffix _ es

theorem length_latest (limit : Nat) (es : List α) :
    (latest limit es).length = min es.length limit := by
  rw [latest, List.length_drop]
  omega

/-- Of the latest entries with one more the latest are those of all entries with one more. -/
theorem latest_concat (limit : Nat) (es : List α) (a : α) :
    latest limit (latest limit es ++ [a]) = latest limit (es ++ [a]) := by
  simp only [latest, List.length_append, List.length_drop, List.length_singleton]
  rw [← List.drop_append_of_le_length (Nat.sub_le _ _), List.drop_drop]
  congr 1
  omega

/-- The log is what is left of some entries: it has the latest of them and has counted the
others. -/
structure Keeps (l : BoundedLog α limit) (es : List α) : Prop where
  entries_eq : l.entries = latest limit es
  dropped_eq : l.dropped = min (es.length - limit) Number.counterMax

namespace Keeps

theorem empty : (BoundedLog.empty : BoundedLog α limit).Keeps [] :=
  ⟨by simp [BoundedLog.empty, latest], by simp [BoundedLog.empty]⟩

theorem push (h : l.Keeps es) (a : α) : (l.push a).Keeps (es ++ [a]) where
  entries_eq := by rw [entries_push, h.entries_eq, latest_concat]
  dropped_eq := by
    have hlength : l.entries.length = min es.length limit := by rw [h.entries_eq, length_latest]
    simp only [BoundedLog.push, Number.countUp, h.dropped_eq, List.length_append,
      List.length_singleton, hlength]
    omega

theorem foldl_push (h : l.Keeps es) (as : List α) : (as.foldl .push l).Keeps (es ++ as) := by
  induction as generalizing l es with
  | nil => rwa [List.append_nil]
  | cons a as ih =>
    rw [List.foldl_cons, List.append_cons]
    exact ih (h.push a)

theorem length_eq (h : l.Keeps es) : l.entries.length = min es.length limit := by
  rw [h.entries_eq, length_latest]

theorem suffix (h : l.Keeps es) : l.entries <:+ es := h.entries_eq ▸ latest_suffix limit es

/-- Every entry was kept or counted. -/
theorem dropped_eq_sub (h : l.Keeps es) :
    l.dropped = min (es.length - l.entries.length) Number.counterMax := by
  rw [h.dropped_eq, h.length_eq]
  omega

end Keeps

end BoundedLog

namespace EventBus

/-- What happens to a bus: an event is emitted, or the frame changes, at the end of a frame or
otherwise. -/
inductive Call where
  | emit (content : EventContent)
  | reframe (change : Nat → Nat)

def answer (b : EventBus) : Call → EventBus
  | .emit content => b.emit content
  | .reframe change => { b with frame := change b.frame }

theorem log_answer_emit (b : EventBus) (content : EventContent) :
    (b.answer (.emit content)).log = b.log.push ⟨content, b.frame⟩ := by
  simp only [answer, emit]

theorem frame_answer_emit (b : EventBus) (content : EventContent) :
    (b.answer (.emit content)).frame = b.frame := by
  simp only [answer, emit]

/-- The events that calls emit from a frame on, each with the frame in which it is emitted. -/
def emissions (frame : Nat) : List Call → List Event
  | [] => []
  | .emit content :: calls => ⟨content, frame⟩ :: emissions frame calls
  | .reframe change :: calls => emissions (change frame) calls

/-- An event has the frame of the bus that emits it. -/
theorem emissions_concat (b : EventBus) (calls : List Call) (content : EventContent) :
    emissions b.frame (calls ++ [.emit content]) =
      emissions b.frame calls ++ [⟨content, (calls.foldl answer b).frame⟩] := by
  induction calls generalizing b with
  | nil => rfl
  | cons call calls ih =>
    rw [List.cons_append, List.foldl_cons]
    cases call with
    | emit first =>
      have hrest := ih (b.answer (.emit first))
      rw [frame_answer_emit] at hrest
      rw [emissions, emissions, hrest, List.cons_append]
    | reframe change => exact ih (b.answer (.reframe change))

theorem keeps_foldl_answer {b : EventBus} {es : List Event} (h : b.log.Keeps es)
    (calls : List Call) :
    (calls.foldl answer b).log.Keeps (es ++ emissions b.frame calls) := by
  induction calls generalizing b es with
  | nil => rwa [emissions, List.append_nil]
  | cons call calls ih =>
    rw [List.foldl_cons]
    cases call with
    | emit content =>
      have hpush : (b.answer (.emit content)).log.Keeps (es ++ [⟨content, b.frame⟩]) := by
        rw [log_answer_emit]
        exact h.push ⟨content, b.frame⟩
      have hrest := ih hpush
      rw [frame_answer_emit] at hrest
      rwa [emissions, List.append_cons]
    | reframe change => exact ih (b := b.answer (.reframe change)) h

theorem get?_foldl_tally (ks : List String) (t : Table Nat) (kind : String) :
    (ks.foldl tally t).get? kind =
      if kind ∈ ks then some ((t.get? kind).getD 0 + ks.count kind) else t.get? kind := by
  induction ks generalizing t with
  | nil => simp
  | cons k ks ih =>
    rw [List.foldl_cons, ih, tally, Table.get?_insert, List.count_cons]
    by_cases hk : kind = k
    · subst hk
      by_cases hmem : kind ∈ ks
      · simp [hmem]
        omega
      · simp [hmem, List.count_eq_zero_of_not_mem hmem]
    · simp [hk, Ne.symm hk]

/-- The kinds of the kept events in ascending order, each once. -/
def kinds (b : EventBus) : List String :=
  (b.log.entries.map (·.content.kind)).dedup.mergeSort (· ≤ ·)

theorem mem_kinds {b : EventBus} {kind : String} :
    kind ∈ b.kinds ↔ kind ∈ b.log.entries.map (·.content.kind) := by
  rw [kinds, List.mem_mergeSort, List.mem_dedup]

theorem perm_kinds (b : EventBus) : b.kinds.Perm (b.log.entries.map (·.content.kind)).dedup :=
  List.mergeSort_perm _ _

theorem nodup_kinds (b : EventBus) : b.kinds.Nodup :=
  b.perm_kinds.nodup_iff.2 (List.nodup_dedup _)

theorem kinds_ascending (b : EventBus) : b.kinds.Pairwise (· < ·) := by
  have hsorted : b.kinds.Pairwise (· ≤ ·) := List.pairwise_mergeSort' (· ≤ ·) _
  refine (hsorted.and b.nodup_kinds).imp ?_
  rintro kind kind' ⟨hle, hne⟩
  exact lt_of_le_of_ne hle hne

theorem count_eq (b : EventBus) (kind : String) :
    b.count kind = (b.log.entries.map (·.content.kind)).count kind := by
  rw [count, ← List.countP_eq_length_filter, List.count_eq_countP, List.countP_map]
  rfl

/-- The fold over the kept events counts each of their kinds. -/
theorem mem_summary {b : EventBus} {kind : String} {k : Nat} :
    (kind, k) ∈ b.summary ↔ (∃ e ∈ b.log.entries, e.content.kind = kind) ∧ k = b.count kind := by
  rw [summary, Table.mem_entries_iff, get?_foldl_tally, ← List.mem_map, count_eq, Table.get?_empty]
  split
  · rename_i hkind
    simp [hkind, eq_comm]
  · rename_i hkind
    simp [hkind]

theorem summary_eq (b : EventBus) :
    b.summary = b.kinds.map fun kind => (kind, b.count kind) := by
  refine Table.eq_of_ascending (Table.ascending _) (List.pairwise_map.2 b.kinds_ascending) ?_
  rintro ⟨kind, k⟩
  rw [mem_summary, ← List.mem_map, ← mem_kinds, List.mem_map]
  constructor
  · rintro ⟨hkind, rfl⟩
    exact ⟨kind, hkind, rfl⟩
  · rintro ⟨kind', hkind, heq⟩
    cases heq
    exact ⟨hkind, rfl⟩

/-- The kinds of a summary ascend, so each is there once. -/
theorem ascending_summary (b : EventBus) : (b.summary.map (·.1)).Pairwise (· < ·) :=
  List.pairwise_map.2 (Table.ascending _)

/-- Each kept event is counted once. -/
theorem sum_summary (b : EventBus) : (b.summary.map (·.2)).sum = b.log.entries.length := by
  calc (b.summary.map (·.2)).sum
      = (b.kinds.map fun kind => (b.log.entries.map (·.content.kind)).count kind).sum := by
        rw [summary_eq, List.map_map]
        exact congrArg List.sum (List.map_congr_left fun kind _ => b.count_eq kind)
    _ = ((b.log.entries.map (·.content.kind)).dedup.map
          fun kind => (b.log.entries.map (·.content.kind)).count kind).sum :=
      (b.perm_kinds.map _).sum_eq
    _ = b.log.entries.length := by rw [List.sum_map_count_dedup_eq_length, List.length_map]

end EventBus

/-- A new event bus and a new log of faults keep exactly the last entries of all, up to five hundred
and one hundred, each event with the frame in which it was emitted, and count the others as long as
the counter goes. The summary of the bus has one entry for each kind of the kept events, with the
number of these, and so counts each kept event once. -/
theorem logs_keep_latest (calls : List EventBus.Call) (faults : List Script.Fault) :
    let events := EventBus.emissions 0 calls
    let bus := calls.foldl EventBus.answer .empty
    let log : Script.FaultLog := faults.foldl .push .empty
    (∀ content, EventBus.emissions 0 (calls ++ [.emit content]) =
      events ++ [⟨content, bus.frame⟩]) ∧
      (bus.log.entries <:+ events ∧ bus.log.entries.length = min events.length 500 ∧
        bus.log.dropped = min (events.length - bus.log.entries.length) Number.counterMax) ∧
      (log.entries <:+ faults ∧ log.entries.length = min faults.length 100 ∧
        log.dropped = min (faults.length - log.entries.length) Number.counterMax) ∧
      (bus.summary.map (·.1)).Nodup ∧
      (∀ kind k, (kind, k) ∈ bus.summary ↔
        (∃ e ∈ bus.log.entries, e.content.kind = kind) ∧ k = bus.count kind) ∧
      (bus.summary.map (·.2)).sum = bus.log.entries.length := by
  intro events bus log
  have hbus : bus.log.Keeps events := EventBus.keeps_foldl_answer (b := .empty) .empty calls
  have hlog : log.Keeps faults := BoundedLog.Keeps.empty.foldl_push faults
  exact ⟨EventBus.emissions_concat .empty calls,
    ⟨hbus.suffix, hbus.length_eq, hbus.dropped_eq_sub⟩,
    ⟨hlog.suffix, hlog.length_eq, hlog.dropped_eq_sub⟩,
    bus.ascending_summary.imp fun hlt => ne_of_lt hlt,
    fun _ _ => EventBus.mem_summary, bus.sum_summary⟩

end BlockStudio
