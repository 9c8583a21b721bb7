import BlockStudio.Script.Session
import Mathlib.Data.List.Dedup
import Mathlib.Data.List.Induction
import Mathlib.Data.List.Nodup

/-!
Tables by their look-ups, and the tables of bindings. A table of bindings remembers the lists of
each name and whether the name was active when last looked at. Main statement: the lists that such a
table fires are those of the names that have become active, name by name in ascending order, and
under each name in the order in which they were registered.
-/
namespace BlockStudio

namespace Table
variable {α β : Type}

theorem mem_iff_search {key : String} {value : α} {es : List (String × α)}
    (h : es.Pairwise fun a b => a.1 < b.1) :
    (key, value) ∈ es ↔ search key es = some value := by
  induction es with
  | nil => simp [search]
  | cons e es ih =>
    obtain ⟨k, x⟩ := e
    obtain ⟨hfirst, hrest⟩ := List.pairwise_cons.1 h
    rw [List.mem_cons, search]
    split
    · rename_i hkey
      subst hkey
      have hlater : (key, value) ∉ es := fun hmem => String.lt_irrefl key (hfirst _ hmem)
      simp [hlater, eq_comm]
    · rename_i hkey
      rw [← ih hrest]
      simp [hkey]

theorem mem_entries_iff (t : Table α) {key : String} {value : α} :
    (key, value) ∈ t.entries ↔ t.get? key = some value :=
  mem_iff_search t.ascending

theorem eq_of_ascending {es ds : List (String × α)} (hes : es.Pairwise fun a b => a.1 < b.1)
    (hds : ds.Pairwise fun a b => a.1 < b.1) (h : ∀ e, e ∈ es ↔ e ∈ ds) : es = ds := by
  have hnodup : ∀ {es : List (String × α)}, es.Pairwise (fun a b => a.1 < b.1) → es.Nodup := by
    intro es hes
    refine hes.imp ?_
    rintro e _ hlt rfl
    exact String.lt_irrefl e.1 hlt
  have hperm : es.Perm ds := (List.perm_ext_iff_of_nodup (hnodup hes) (hnodup hds)).2 h
  exact hperm.eq_of_pairwise (fun _ _ _ _ hlt hgt => absurd hgt (String.lt_asymm hlt)) hes hds

theorem ext_get? {t t' : Table α} (h : ∀ key, t.get? key = t'.get? key) : t = t' := by
  have hentries : t.entries = t'.entries := by
    refine eq_of_ascending t.ascending t'.ascending fun e => ?_
    obtain ⟨key, value⟩ := e
    rw [mem_entries_iff, mem_entries_iff, h]
  cases t
  cases t'
  cases hentries
  rfl

/-- The last entry of a name is the one that counts. -/
theorem get?_ofList (es : List (String × α)) (key : String) :
    (ofList es).get? key =
      (es.filterMap fun e => if e.1 = key then some e.2 else none).getLast? := by
  induction es using List.reverseRecOn with
  | nil => rfl
  | append_singleton es e ih =>
    have hinsert : ofList (es ++ [e]) = (ofList es).insert e.1 e.2 := by simp [ofList]
    rw [hinsert, get?_insert, ih, List.filterMap_append]
    by_cases hkey : e.1 = key
    · simp [hkey]
    · simp [hkey, Ne.symm hkey]

theorem insert_of_get? {t : Table α} {key : String} {value : α} (h : t.get? key = some value) :
    t.insert key value = t := by
  refine ext_get? fun k => ?_
  rw [get?_insert]
  split
  · rename_i hk
    rw [hk, h]
  · rfl

theorem get?_mapValues (t : Table α) (f : String → α → β) (key : String) :
    (t.mapValues f).get? key = (t.get? key).map (f key) := by
  have hsearch : ∀ es : List (String × α),
      search key (es.map fun e => (e.1, f e.1 e.2)) = (search key es).map (f key) := by
    intro es
    induction es with
    | nil => rfl
    | cons e es ih =>
      obtain ⟨k, value⟩ := e
      rw [List.map_cons, search, search, ih]
      split
      · rename_i hk
        rw [hk]
        rfl
      · rfl
  exact hsearch t.entries

theorem mapValues_mapValues {γ : Type} (t : Table α) (f : String → α → β) (g : String → β → γ) :
    (t.mapValues f).mapValues g = t.mapValues fun key value => g key (f key value) := by
  simp only [mapValues, List.map_map]
  rfl

end Table

namespace Script

section
variable {α : Type}

theorem grouped_concat (es : List (String × α)) (e : String × α) :
    grouped (es ++ [e]) = addToGroup (grouped es) e := by
  simp [grouped]

def valuesOf (name : String) (es : List (String × α)) : List α := (es.filter (·.1 = name)).map (·.2)

theorem valuesOf_concat (name : String) (es : List (String × α)) (e : String × α) :
    valuesOf name (es ++ [e]) = if e.1 = name then valuesOf name es ++ [e.2]
      else valuesOf name es := by
  unfold valuesOf
  split
  · simp [*]
  · simp [*]

/-- A grouped table has for each name the values given to it, in order. The table is a fold, so the
induction takes off the entry that was added last. -/
theorem get?_grouped (es : List (String × α)) (name : String) :
    (grouped es).get? name = if name ∈ es.map (·.1) then some (valuesOf name es) else none := by
  induction es using List.reverseRecOn with
  | nil => rfl
  | append_singleton es e ih =>
    rw [grouped_concat, addToGroup, Table.get?_insert, valuesOf_concat]
    by_cases hname : name = e.1
    · subst hname
      rw [ih]
      by_cases hmem : e.1 ∈ es.map (·.1)
      · simp [hmem]
      · have hnone : valuesOf e.1 es = [] := by
          refine List.map_eq_nil_iff.2 (List.filter_eq_nil_iff.2 fun d hd hsame => hmem ?_)
          rw [← of_decide_eq_true hsame]
          exact List.mem_map_of_mem hd
        simp [hmem, hnone]
    · rw [if_neg hname, if_neg (Ne.symm hname), ih]
      have hsame : name ∈ (es ++ [e]).map (·.1) ↔ name ∈ es.map (·.1) := by simp [hname]
      by_cases hmem : name ∈ es.map (·.1)
      · rw [if_pos hmem, if_pos (hsame.2 hmem)]
      · rw [if_neg hmem, if_neg (hsame.not.2 hmem)]

/-- The names that entries are given for, in ascending order, each once. -/
def namesOf (es : List (String × α)) : List String :=
  (es.map (·.1)).dedup.mergeSort fun a b => a ≤ b

theorem mem_namesOf {es : List (String × α)} {name : String} :
    name ∈ namesOf es ↔ name ∈ es.map (·.1) := by
  rw [namesOf, List.mem_mergeSort, List.mem_dedup]

theorem namesOf_ascending (es : List (String × α)) : (namesOf es).Pairwise (· < ·) := by
  have hsorted : (namesOf es).Pairwise fun a b => decide (a ≤ b) = true :=
    List.pairwise_mergeSort
      (fun _ _ _ hab hbc => by
        simpa using String.le_trans (by simpa using hab) (by simpa using hbc))
          (fun a b => by simpa using String.le_total a b) _
  have hnodup : (namesOf es).Nodup := (List.mergeSort_perm _ _).nodup_iff.2 (List.nodup_dedup _)
  refine (hsorted.and hnodup).imp ?_
  rintro a b ⟨hle, hne⟩
  exact Table.lt_of_not_lt (String.not_lt.2 (of_decide_eq_true hle)) (Ne.symm hne)

theorem entries_grouped (es : List (String × α)) :
    (grouped es).entries = (namesOf es).map fun name => (name, valuesOf name es) := by
  refine Table.eq_of_ascending (grouped es).ascending ?_ ?_
  · rw [List.pairwise_map]
    exact namesOf_ascending es
  · rintro ⟨name, values⟩
    rw [Table.mem_entries_iff, get?_grouped]
    constructor
    · intro h
      split at h
      · rename_i hmem
        obtain rfl := Option.some.inj h
        exact List.mem_map_of_mem (mem_namesOf.2 hmem)
      · contradiction
    · intro h
      obtain ⟨_, hmem, heq⟩ := List.mem_map.1 h
      obtain ⟨rfl, rfl⟩ := Prod.mk.inj heq
      exact if_pos (mem_namesOf.1 hmem)

end

/-- The bindings of some lists, after a look at which names are active. -/
def bindingsSeen (es : List (String × List Action)) (active : String → Bool) : Table Binding :=
  (grouped es).mapValues fun name lists => ⟨lists, active name⟩

theorem sense_bindingsSeen (es : List (String × List Action)) (before now : String → Bool) :
    sense now (bindingsSeen es before) = bindingsSeen es now :=
  Table.mapValues_mapValues _ _ _

/-- The lists of the names that have become active, each with its label: the names in ascending
order, and the lists of a name in the order in which they stand. -/
def onsets (label : String → String) (before now : String → Bool)
    (es : List (String × List Action)) : List (String × List Action) :=
  ((namesOf es).filter fun name => now name && !before name).flatMap fun name =>
    (valuesOf name es).map (label name, ·)

theorem risen_bindingsSeen (label : String → String) (before now : String → Bool)
    (es : List (String × List Action)) :
    risen label now (bindingsSeen es before) = onsets label before now es := by
  simp only [risen, bindingsSeen, Table.mapValues, entries_grouped, List.flatMap_map, onsets]
  induction namesOf es with
  | nil => rfl
  | cons name names ih =>
    rw [List.flatMap_cons, ih, List.filter_cons]
    split <;> rfl

end Script

end BlockStudio
