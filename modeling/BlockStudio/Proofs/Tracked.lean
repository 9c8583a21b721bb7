import BlockStudio.Proofs.Commuting
import BlockStudio.Scene
import Mathlib.Data.List.Flatten
import Mathlib.Data.List.Nodup
import Mathlib.Data.List.Pairwise

/-!
What a game keeps track of, place by place: six collections and the goal. A world is consistent if
the tracked objects exist and no object is tracked twice. Main statements: a scene whose objects
have different ids sets up a consistent world, and destroying an object takes it out of the one
place that holds it and leaves the world consistent.
-/
namespace BlockStudio

namespace TrackedPlace

def all : List TrackedPlace := Collection.all.map .collection ++ [.goal]

theorem mem_all (q : TrackedPlace) : q ∈ all := by
  cases q with
  | collection c => exact List.mem_append_left _ (List.mem_map_of_mem c.mem_all)
  | goal => exact List.mem_append_right _ (List.mem_singleton_self _)

theorem nodup_all : all.Nodup := by decide

end TrackedPlace

namespace Tracking
variable {t t' : Tracking} {id : ObjectId} {q : TrackedPlace}

/-- The objects that are tracked in a place. -/
def held (t : Tracking) : TrackedPlace → List ObjectId
  | .collection c => t.get c
  | .goal => t.goal.toList

/-- All tracked objects, place after place. -/
def ids (t : Tracking) : List ObjectId := TrackedPlace.all.flatMap t.held

theorem mem_ids : id ∈ t.ids ↔ ∃ q, id ∈ t.held q := by
  simp only [ids, List.mem_flatMap, TrackedPlace.mem_all, true_and]

theorem nodup_ids_iff : t.ids.Nodup ↔
    (∀ q, (t.held q).Nodup) ∧ ∀ q q', q ≠ q' → (t.held q).Disjoint (t.held q') := by
  rw [ids, List.nodup_flatMap]
  simp only [TrackedPlace.mem_all, forall_const]
  have hsymm : Std.Symm (Function.onFun List.Disjoint t.held) := ⟨fun _ _ h => h.symm⟩
  refine and_congr_right fun _ =>
    ⟨fun h q q' hne => ?_, fun h => TrackedPlace.nodup_all.imp fun hne => h _ _ hne⟩
  exact h.forall (TrackedPlace.mem_all q) (TrackedPlace.mem_all q') hne

theorem mem_held_of_find? (h : t.find? id = some q) : id ∈ t.held q := by
  cases q with
  | goal => simp [held, eq_goal_of_find? h]
  | collection c =>
    unfold find? at h
    split at h
    · rename_i d hfound
      cases h
      simpa [held] using List.find?_some hfound
    · split at h <;> simp at h

/-- Where no object is tracked twice, a search finds the place that holds the object. -/
theorem find?_eq_some_iff (h : t.ids.Nodup) : t.find? id = some q ↔ id ∈ t.held q := by
  refine ⟨mem_held_of_find?, fun hq => ?_⟩
  cases hfound : t.find? id with
  | none =>
    exfalso
    unfold find? at hfound
    split at hfound
    · simp at hfound
    · rename_i hnone
      cases q with
      | collection c =>
        have habsent := List.find?_eq_none.1 hnone c c.mem_all
        exact habsent (by simpa [held] using hq)
      | goal =>
        have hgoal : t.goal = some id := by simpa [held] using hq
        simp [hgoal] at hfound
  | some q' =>
    by_contra hne
    have hother : q' ≠ q := fun heq => hne (congrArg some heq)
    exact (nodup_ids_iff.1 h).2 q' q hother (mem_held_of_find? hfound) hq

theorem untrack_fst (t : Tracking) (id : ObjectId) : (t.untrack id).1 = t.find? id := by
  unfold untrack
  split <;> simp [*]

theorem held_untrack (h : t.ids.Nodup) (id : ObjectId) (q : TrackedPlace) :
    (t.untrack id).2.held q = (t.held q).erase id := by
  by_cases hq : t.find? id = some q
  · cases q with
    | collection c => simp only [held, get_untrack, if_pos hq]
    | goal => simp [held, goal_untrack, if_pos hq, eq_goal_of_find? hq]
  · have habsent : id ∉ t.held q := fun hmem => hq ((find?_eq_some_iff h).2 hmem)
    rw [List.erase_of_not_mem habsent]
    cases q with
    | collection c => simp only [held, get_untrack, if_neg hq]
    | goal => simp only [held, goal_untrack, if_neg hq]

theorem ids_untrack_sublist (h : t.ids.Nodup) (id : ObjectId) :
    (t.untrack id).2.ids.Sublist t.ids := by
  refine List.Sublist.flatMap_right _ fun q _ => ?_
  rw [held_untrack h]
  exact List.erase_sublist

theorem notMem_ids_untrack (h : t.ids.Nodup) (id : ObjectId) : id ∉ (t.untrack id).2.ids := by
  rw [mem_ids]
  rintro ⟨q, hq⟩
  rw [held_untrack h] at hq
  exact ((nodup_ids_iff.1 h).1 q).not_mem_erase hq

/-- An object that is tracked nowhere may come last in one place. -/
theorem nodup_ids_of_held {l : List ObjectId} (h : t.ids.Nodup) (hid : id ∉ t.ids)
    (hl : l.Sublist (t.held q)) (hnew : t'.held q = l ++ [id])
    (hsame : ∀ q', q' ≠ q → t'.held q' = t.held q') : t'.ids.Nodup := by
  obtain ⟨hnodup, hdisjoint⟩ := nodup_ids_iff.1 h
  have habsent : ∀ q', id ∉ t.held q' := fun q' hmem => hid (mem_ids.2 ⟨q', hmem⟩)
  have hnewNodup : (l ++ [id]).Nodup := by
    rw [List.nodup_append]
    exact ⟨(hnodup q).sublist hl, List.nodup_singleton id, by
      rintro x hx y hy rfl
      exact habsent q (hl.subset (List.mem_singleton.1 hy ▸ hx))⟩
  have hapart : ∀ q', q' ≠ q → (t'.held q').Disjoint (t'.held q) := by
    intro q' hq' x hx hx'
    rw [hsame q' hq'] at hx
    rw [hnew, List.mem_append, List.mem_singleton] at hx'
    rcases hx' with hold | rfl
    · exact hdisjoint q' q hq' hx (hl.subset hold)
    · exact habsent q' hx
  refine nodup_ids_iff.2 ⟨fun q' => ?_, fun q₁ q₂ hne => ?_⟩
  · by_cases hq' : q' = q
    · rw [hq', hnew]
      exact hnewNodup
    · rw [hsame q' hq']
      exact hnodup q'
  · by_cases h₁ : q₁ = q
    · exact h₁ ▸ (hapart q₂ fun h₂ => hne (h₁.trans h₂.symm)).symm
    · by_cases h₂ : q₂ = q
      · exact h₂ ▸ hapart q₁ h₁
      · rw [hsame q₁ h₁, hsame q₂ h₂]
        exact hdisjoint q₁ q₂ hne

theorem held_add (t : Tracking) (c : Collection) (id : ObjectId) (q : TrackedPlace) :
    (t.add c id).held q = if q = .collection c then t.get c ++ [id] else t.held q := by
  cases q with
  | collection d => simp [held, add, get_set]
  | goal => simp [held, add]

theorem held_goal (t : Tracking) (id : ObjectId) (q : TrackedPlace) :
    ({ t with goal := some id } : Tracking).held q = if q = .goal then [id] else t.held q := by
  cases q with
  | collection d => cases d <;> rfl
  | goal => rfl

/-- What a role adds: nothing, or the object at the end of one place, from which the goal that was
there may go. -/
theorem track_cases (t : Tracking) (id : ObjectId) (role : String) : Scene.track t id role = t ∨
    ∃ q l, l.Sublist (t.held q) ∧ (Scene.track t id role).held q = l ++ [id] ∧
      ∀ q', q' ≠ q → (Scene.track t id role).held q' = t.held q' := by
  unfold Scene.track
  split
  · refine .inr ⟨.goal, [], List.nil_sublist _, ?_, fun q' hq' => ?_⟩
    · rw [held_goal, if_pos rfl, List.nil_append]
    · rw [held_goal, if_neg hq']
  · split
    · rename_i c _
      refine .inr ⟨.collection c, t.get c, List.Sublist.refl _, ?_, fun q' hq' => ?_⟩
      · rw [held_add, if_pos rfl]
      · rw [held_add, if_neg hq']
    · exact .inl rfl

theorem nodup_ids_track (h : t.ids.Nodup) (hid : id ∉ t.ids) (role : String) :
    (Scene.track t id role).ids.Nodup := by
  rcases track_cases t id role with heq | ⟨q, l, hl, hnew, hsame⟩
  · rwa [heq]
  · exact nodup_ids_of_held h hid hl hnew hsame

theorem mem_ids_track {id' : ObjectId} {role : String} (h : id' ∈ (Scene.track t id role).ids) :
    id' ∈ t.ids ∨ id' = id := by
  rcases track_cases t id role with heq | ⟨q, l, hl, hnew, hsame⟩
  · exact .inl (heq ▸ h)
  · obtain ⟨q', hq'⟩ := mem_ids.1 h
    by_cases hplace : q' = q
    · rw [hplace, hnew, List.mem_append, List.mem_singleton] at hq'
      exact hq'.imp_left fun hold => mem_ids.2 ⟨q, hl.subset hold⟩
    · rw [hsame q' hplace] at hq'
      exact .inl (mem_ids.2 ⟨q', hq'⟩)

end Tracking

namespace World

/-- The tracked objects exist, and none of them is tracked twice. -/
structure IsConsistent (w : World) : Prop where
  known : ∀ id ∈ w.tracking.ids, w.objects.contains id = true
  distinct : w.tracking.ids.Nodup

theorem IsConsistent.of_eq {w w' : World} (h : w.IsConsistent) (hobjects : w'.objects = w.objects)
    (htracking : w'.tracking = w.tracking) : w'.IsConsistent := by
  obtain ⟨hknown, hdistinct⟩ := h
  exact ⟨by rwa [hobjects, htracking], by rwa [htracking]⟩

theorem IsConsistent.addObject {w : World} (h : w.IsConsistent) {o : SceneObject}
    (ho : o.id ∉ w.tracking.ids) :
    (Scene.addObject w o).IsConsistent ∧
      ∀ id ∈ (Scene.addObject w o).tracking.ids, id ∈ w.tracking.ids ∨ id = o.id := by
  have hids : ∀ id ∈ (Scene.addObject w o).tracking.ids, id ∈ w.tracking.ids ∨ id = o.id := by
    intro id hid
    simp only [Scene.addObject] at hid
    split at hid
    · exact Tracking.mem_ids_track hid
    · exact .inl hid
  refine ⟨⟨fun id hid => ?_, ?_⟩, hids⟩
  · simp only [Scene.addObject, Table.contains_insert, Bool.or_eq_true, decide_eq_true_eq]
    exact (hids id hid).symm.imp_right (h.known id)
  · simp only [Scene.addObject]
    split
    · exact Tracking.nodup_ids_track h.distinct ho _
    · exact h.distinct

/-- A scene whose objects have different ids sets up a consistent world, whatever was there
before. -/
theorem isConsistent_setUp {s : Scene} (h : (s.objects.map (·.id)).Nodup) (w : World) :
    (s.setUp w).IsConsistent := by
  have hadded : ∀ (os : List SceneObject) (w : World), (os.map (·.id)).Nodup → w.IsConsistent →
      (∀ o ∈ os, o.id ∉ w.tracking.ids) → (os.foldl Scene.addObject w).IsConsistent := by
    intro os
    induction os with
    | nil => exact fun _ _ hw _ => hw
    | cons o os ih =>
      intro w hos hw hnew
      rw [List.map_cons, List.nodup_cons] at hos
      obtain ⟨hconsistent, hids⟩ := hw.addObject (hnew o List.mem_cons_self)
      refine ih _ hos.2 hconsistent fun o' ho' hmem => ?_
      rcases hids o'.id hmem with hold | hsame
      · exact hnew o' (List.mem_cons_of_mem _ ho') hold
      · exact hos.1 (hsame ▸ List.mem_map_of_mem ho')
  have hempty : Tracking.empty.ids = [] := rfl
  refine hadded s.objects _ h ⟨?_, ?_⟩ fun o _ => ?_
  · simp [hempty]
  · simp [hempty]
  · simp [hempty]

theorem IsConsistent.destroyObject {w : World} (h : w.IsConsistent) (id : ObjectId) :
    (w.destroyObject id).IsConsistent := by
  unfold World.destroyObject
  split
  · refine ⟨fun id' hid' => ?_, (Tracking.ids_untrack_sublist h.distinct id).nodup h.distinct⟩
    have hne : id' ≠ id := fun heq => Tracking.notMem_ids_untrack h.distinct id (heq ▸ hid')
    have hold := h.known id' ((Tracking.ids_untrack_sublist h.distinct id).subset hid')
    exact (Table.contains_erase_of_ne w.objects hne).trans hold
  · exact h

end World

/-- The objects `ids` leave a table, and those that stay keep their sizes. -/
structure Loses (before : Table GameObject) (ids : List ObjectId)
    (after : Table GameObject) : Prop where
  nodup : ids.Nodup
  mem_iff : ∀ id, id ∈ ids ↔ before.contains id = true ∧ after.contains id = false
  sizes : ∀ id o', after.get? id = some o' →
    ∃ o, before.get? id = some o ∧ o'.width = o.width ∧ o'.height = o.height

namespace Loses
variable {t t' t'' : Table GameObject} {ids ids' : List ObjectId}

theorem contains_of_contains (h : Loses t ids t') {id : ObjectId} (hid : t'.contains id = true) :
    t.contains id = true := by
  obtain ⟨o', ho'⟩ := Option.isSome_iff_exists.1 hid
  obtain ⟨o, ho, -, -⟩ := h.sizes id o' ho'
  exact Option.isSome_iff_exists.2 ⟨o, ho⟩

theorem refl (t : Table GameObject) : Loses t [] t where
  nodup := List.nodup_nil
  mem_iff id := by cases t.contains id <;> simp
  sizes _ o ho := ⟨o, ho, rfl, rfl⟩

/-- What leaves a table does not come back, so it leaves once. -/
theorem trans (h : Loses t ids t') (h' : Loses t' ids' t'') : Loses t (ids ++ ids') t'' where
  nodup := by
    refine List.nodup_append.2 ⟨h.nodup, h'.nodup, ?_⟩
    rintro id hid _ hid' rfl
    have hgone := ((h.mem_iff id).1 hid).2
    rw [((h'.mem_iff id).1 hid').1] at hgone
    contradiction
  mem_iff id := by
    have hback : t'.contains id = true → t.contains id = true := h.contains_of_contains
    have hback' : t''.contains id = true → t'.contains id = true := h'.contains_of_contains
    rw [List.mem_append, h.mem_iff, h'.mem_iff]
    cases ht : t.contains id <;> cases ht' : t'.contains id <;>
      cases ht'' : t''.contains id <;> simp_all
  sizes id o'' ho'' := by
    obtain ⟨o', ho', hwidth', hheight'⟩ := h'.sizes id o'' ho''
    obtain ⟨o, ho, hwidth, hheight⟩ := h.sizes id o' ho'
    exact ⟨o, ho, hwidth'.trans hwidth, hheight'.trans hheight⟩

theorem modify (t : Table GameObject) (id : ObjectId) {f : GameObject → GameObject}
    (hf : ∀ o, (f o).width = o.width ∧ (f o).height = o.height) : Loses t [] (t.modify id f) where
  nodup := List.nodup_nil
  mem_iff id' := by rw [Table.contains_modify]; cases t.contains id' <;> simp
  sizes id' o' ho' := by
    rw [Table.get?_modify] at ho'
    split at ho'
    · obtain ⟨o, ho, rfl⟩ := Option.map_eq_some_iff.1 ho'
      exact ⟨o, ho, hf o⟩
    · exact ⟨o', ho', rfl, rfl⟩

theorem erase {id : ObjectId} (h : t.contains id = true) : Loses t [id] (t.erase id) where
  nodup := List.nodup_singleton id
  mem_iff id' := by
    rw [List.mem_singleton, Table.contains, Table.contains, Table.get?_erase]
    split
    · rename_i hid
      subst hid
      simpa [Table.contains] using h
    · rename_i hid
      cases t.get? id' <;> simp [hid]
  sizes id' o' ho' := by
    rw [Table.get?_erase] at ho'
    split at ho'
    · contradiction
    · exact ⟨o', ho', rfl, rfl⟩

end Loses

end BlockStudio
