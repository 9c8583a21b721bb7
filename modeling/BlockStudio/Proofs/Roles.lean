import BlockStudio.Proofs.Spelling
import BlockStudio.Scene

/-!
What a scene leaves in a world. Main statement: the world depends on how the role of an object is
spelled only where the word is `goal`, which must stand without blanks around it, and it depends on
nothing that was in the world before but the keys that are held.
-/
namespace BlockStudio

def SceneObject.withRole (o : SceneObject) (role : String) : SceneObject :=
  { o with role := some role }

namespace Scene
open Text

variable {a b : String}

theorem collection?_congr (h : plain a = plain b) : collection? a = collection? b := by
  unfold plain at h
  rw [collection?, collection?, h]

theorem plain_goal : plain "goal" = "goal" := by decide +kernel

theorem collection?_goal (h : plain a = "goal") : collection? a = none := by
  rw [collection?_congr (h.trans plain_goal.symm)]
  decide +kernel

/-- A role makes an object the goal only if no blanks are around it. -/
theorem track_of_goal (h : plain a = "goal") (t : Tracking) (id : ObjectId) :
    track t id a = if trim a = a then { t with goal := some id } else t := by
  by_cases htrim : trim a = a
  · rw [track, if_pos ((sameIgnoringCase_iff plain_goal).2 ⟨h, htrim⟩), if_pos htrim]
  · have hsame : ¬ sameIgnoringCase a "goal" = true :=
      fun hgoal => htrim ((sameIgnoringCase_iff plain_goal).1 hgoal).2
    rw [track, if_neg hsame, collection?_goal h, if_neg htrim]

theorem track_of_not_goal (h : plain a ≠ "goal") (t : Tracking) (id : ObjectId) :
    track t id a = ((collection? a).map (t.add · id)).getD t := by
  have hsame : ¬ sameIgnoringCase a "goal" = true :=
    fun hgoal => h ((sameIgnoringCase_iff plain_goal).1 hgoal).1
  rw [track, if_neg hsame]
  cases collection? a <;> rfl

theorem track_congr (h : plain a = plain b)
    (hgoal : plain a = "goal" → (trim a = a ↔ trim b = b)) (t : Tracking) (id : ObjectId) :
    track t id a = track t id b := by
  by_cases ha : plain a = "goal"
  · simp only [track_of_goal ha, track_of_goal (h ▸ ha), hgoal ha]
  · rw [track_of_not_goal ha, track_of_not_goal (h ▸ ha), collection?_congr h]

theorem addObject_withRole (w : World) (o : SceneObject) (role : String) :
    addObject w (o.withRole role) =
      { w with
        tracking := track w.tracking o.id role
        objects := w.objects.insert o.id (SceneObject.toObject o) } := rfl

/-- An object is added whatever events there are. -/
theorem foldl_addObject_withBus (w : World) (os : List SceneObject) (bus : EventBus) :
    os.foldl addObject { w with bus } = { os.foldl addObject w with bus } := by
  induction os generalizing w with
  | nil => rfl
  | cons o os ih => exact ih (addObject w o)

/-- A world that a scene is set up in keeps its events and its keys, and without a player in the
scene its own player; nothing else of it stays. -/
theorem setUp_forgets {s : Scene} {w w' : World} (hkeys : w.keys = w'.keys)
    (hplayer : s.player.isSome = true) :
    s.setUp w' = { s.setUp w with bus := w'.bus } := by
  obtain ⟨player, hsome⟩ := Option.isSome_iff_exists.1 hplayer
  simp only [setUp, hsome, Option.getD_some]
  rw [← foldl_addObject_withBus, hkeys]

/-- Two spellings of a role that differ in case and in blanks around them alone give every scene the
same world, unless the role is `goal` and blanks are around one of the two. A scene with a player
gives two worlds with the same keys the same content, whatever they held before; only the events are
those of before. -/
theorem setUp_reads_roles (h : plain a = plain b) :
    ((∀ player before (o : SceneObject) after w,
          (⟨player, before ++ o.withRole a :: after⟩ : Scene).setUp w =
            (⟨player, before ++ o.withRole b :: after⟩ : Scene).setUp w) ↔
        (plain a = "goal" → (trim a = a ↔ trim b = b))) ∧
      ∀ (s : Scene) (w w' : World), s.player.isSome = true → w.keys = w'.keys →
        s.setUp w' = { s.setUp w with bus := w'.bus } := by
  refine ⟨⟨fun hsame ha => ?_, fun hgoal player before o after w => ?_⟩,
    fun s w w' hplayer hkeys => setUp_forgets hkeys hplayer⟩
  · have hworld := hsame none [] ⟨"flag", 0, 0, 0, 0, none, none⟩ [] .empty
    have htrack : track .empty "flag" a = track .empty "flag" b := congrArg World.tracking hworld
    rw [track_of_goal ha, track_of_goal (h ▸ ha)] at htrack
    have hgoal := congrArg Tracking.goal htrack
    by_cases htrim : trim a = a <;> by_cases htrim' : trim b = b <;> simp_all [Tracking.empty]
  · simp only [setUp, List.foldl_append, List.foldl_cons, addObject_withRole, track_congr h hgoal]

theorem setUp_reads_goal_in_capitals :
    let w : World := { World.empty with score := 5, ended := true }
    let s : Scene := ⟨some .zero, []⟩
    plain "GOAL" = plain "goal" ∧
      (∀ player before (o : SceneObject) after w,
        (⟨player, before ++ o.withRole "GOAL" :: after⟩ : Scene).setUp w =
          (⟨player, before ++ o.withRole "goal" :: after⟩ : Scene).setUp w) ∧
      s.setUp w = { s.setUp .empty with bus := w.bus } := by
  intro w s
  have hcapitals : plain "GOAL" = "goal" := by decide +kernel
  have h : plain "GOAL" = plain "goal" := hcapitals.trans plain_goal.symm
  obtain ⟨hroles, hpast⟩ := setUp_reads_roles h
  exact ⟨h, hroles.2 fun _ => iff_of_true (by decide) (by decide), hpast s .empty w rfl rfl⟩

/-- The role `goal` with blanks around it is ignored, although it differs from `goal` in the blanks
alone. -/
theorem setUp_ignores_goal_in_blanks :
    let flag : SceneObject := ⟨"flag", 0, 0, 32, 32, none, none⟩
    plain " goal " = plain "goal" ∧
      ((⟨none, [flag.withRole " goal "]⟩ : Scene).setUp .empty).tracking.goal = none ∧
      ((⟨none, [flag.withRole "goal"]⟩ : Scene).setUp .empty).tracking.goal = some "flag" := by
  have hblanks : plain " goal " = "goal" := by decide +kernel
  refine ⟨hblanks.trans plain_goal.symm, ?_, ?_⟩
  · exact congrArg Tracking.goal ((track_of_goal hblanks _ _).trans (if_neg (by decide)))
  · exact congrArg Tracking.goal ((track_of_goal plain_goal _ _).trans (if_pos (by decide)))

end Scene

end BlockStudio
