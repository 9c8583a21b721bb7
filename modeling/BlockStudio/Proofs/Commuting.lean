import BlockStudio.Proofs.Bindings
import BlockStudio.Proofs.Confinement

/-!
Effects on different variables and objects commute. An effect that keeps to a variable or an object
is a patch of the state, and patches of different places commute, also where they take two objects
out of one collection. Main statement: what a script with such effects does is not noticed by a
script that uses other variables and objects.
-/
namespace BlockStudio

namespace Table
variable {α : Type}

theorem get?_modify (t : Table α) (key k : String) (f : α → α) :
    (t.modify key f).get? k = if k = key then (t.get? k).map f else t.get? k := by
  by_cases hk : k = key
  · subst hk
    rw [if_pos rfl, modify]
    cases h : t.get? k with
    | none => exact h
    | some value => exact get?_insert_self t k (f value)
  · rw [if_neg hk, modify]
    split
    · rfl
    · exact get?_insert_of_ne t _ hk

@[simp] theorem contains_modify (t : Table α) (key k : String) (f : α → α) :
    (t.modify key f).contains k = t.contains k := by
  rw [contains, contains, get?_modify]
  split <;> simp

theorem contains_erase_of_ne (t : Table α) {key k : String} (h : k ≠ key) :
    (t.erase key).contains k = t.contains k := by
  rw [contains, contains, get?_erase, if_neg h]

theorem insert_comm (t : Table α) {key key' : String} (h : key ≠ key') (value value' : α) :
    (t.insert key value).insert key' value' = (t.insert key' value').insert key value := by
  refine ext_get? fun k => ?_
  simp only [get?_insert]
  grind

theorem modify_comm (t : Table α) {key key' : String} (h : key ≠ key') (f g : α → α) :
    (t.modify key f).modify key' g = (t.modify key' g).modify key f := by
  refine ext_get? fun k => ?_
  simp only [get?_modify]
  grind

theorem modify_erase_comm (t : Table α) {key key' : String} (h : key ≠ key') (f : α → α) :
    (t.modify key f).erase key' = (t.erase key').modify key f := by
  refine ext_get? fun k => ?_
  simp only [get?_modify, get?_erase]
  grind

theorem erase_comm (t : Table α) (key key' : String) :
    (t.erase key).erase key' = (t.erase key').erase key := by
  refine ext_get? fun k => ?_
  simp only [get?_erase]
  grind

theorem erase_of_not_contains {t : Table α} {key : String} (h : ¬t.contains key = true) :
    t.erase key = t := by
  refine ext_get? fun k => ?_
  rw [get?_erase]
  split
  · rename_i hk
    rw [hk]
    exact (Option.not_isSome_iff_eq_none.1 h).symm
  · rfl

end Table

namespace Tracking

theorem ext_get {t t' : Tracking} (h : ∀ c, t.get c = t'.get c) (hgoal : t.goal = t'.goal) :
    t = t' := by
  have hplatforms := h .platforms
  have hhazards := h .hazards
  have hcollectibles := h .collectibles
  have henemies := h .enemies
  have hbouncePads := h .bouncePads
  have hcheckpoints := h .checkpoints
  cases t
  cases t'
  simp_all [get]

theorem get_untrack (t : Tracking) (id : ObjectId) (c : Collection) :
    (t.untrack id).2.get c = if t.find? id = some (.collection c) then (t.get c).erase id
      else t.get c := by
  unfold untrack
  cases h : t.find? id with
  | none => simp
  | some place =>
    cases place with
    | goal =>
      simp only [Option.some.injEq, reduceCtorEq, if_false]
      cases c <;> rfl
    | collection d =>
      simp only [get_set, Option.some.injEq, TrackedPlace.collection.injEq]
      by_cases hc : c = d
      · simp [hc]
      · simp [hc, Ne.symm hc]

theorem goal_untrack (t : Tracking) (id : ObjectId) :
    (t.untrack id).2.goal = if t.find? id = some .goal then none else t.goal := by
  unfold untrack
  cases h : t.find? id with
  | none => simp
  | some place => cases place <;> simp

theorem eq_goal_of_find? {t : Tracking} {id : ObjectId} (h : t.find? id = some .goal) :
    t.goal = some id := by
  unfold find? at h
  split at h
  · simp at h
  · split at h
    · assumption
    · contradiction

theorem find?_untrack (t : Tracking) {id id' : ObjectId} (h : id ≠ id') :
    (t.untrack id').2.find? id = t.find? id := by
  have hcollections : ∀ c, ((t.untrack id').2.get c).contains id = (t.get c).contains id := by
    intro c
    rw [get_untrack]
    split
    · simp [List.mem_erase_of_ne h]
    · rfl
  have hgoal : ((t.untrack id').2.goal = some id) ↔ t.goal = some id := by
    rw [goal_untrack]
    split
    · rename_i hfound
      simp [eq_goal_of_find? hfound, h.symm]
    · rfl
  simp only [find?, hcollections, hgoal]

/-- Two objects leave what a game keeps track of in either order, also where one collection holds
them both. -/
theorem untrack_comm (t : Tracking) {id id' : ObjectId} (h : id ≠ id') :
    ((t.untrack id).2.untrack id').2 = ((t.untrack id').2.untrack id).2 := by
  refine ext_get (fun c => ?_) ?_
  · simp only [get_untrack, find?_untrack t h, find?_untrack t h.symm]
    split <;> split <;> first | rfl | exact List.erase_comm ..
  · simp only [goal_untrack, find?_untrack t h, find?_untrack t h.symm]
    split <;> split <;> rfl

end Tracking

namespace Script

def Effect.variableName? : Effect → Option String
  | .setVariable name _ => some name
  | .changeVariable name _ => some name
  | _ => none

def Effect.objectId? : Effect → Option ObjectId
  | .move id _ _ => some id
  | .teleport id _ _ => some id
  | .setVisible id _ => some id
  | .destroy id => some id
  | .setColor id _ => some id
  | _ => none

/-- The variables that an action names itself, to write them or to test them. -/
def Action.variableNames : Action → List String
  | .effect e => e.variableName?.toList
  | a => (a.condition?.map (·.variableName)).toList

/-- The objects that an action names itself. -/
def Action.objectIds : Action → List ObjectId
  | .effect e => e.objectId?.toList
  | _ => []

/-- Whether an action keeps to variables and objects: no score, no chance, no message and no end of
the game. -/
def Action.isLocal : Action → Bool
  | .effect (.addScore _) => false
  | .effect (.setScore _) => false
  | .effect (.showMessage _ _) => false
  | .effect .endGame => false
  | .chance _ _ => false
  | a => !a.variableNames.contains scoreVariable

theorem Action.ne_scoreVariable {a : Action} (h : a.isLocal = true) {name : String}
    (hname : name ∈ a.variableNames) :
    name ≠ scoreVariable := by
  rintro rfl
  have hcontains : a.variableNames.contains scoreVariable = true := List.contains_iff_mem.2 hname
  unfold isLocal at h
  split at h <;> first | contradiction | exact absurd hcontains (by simpa using h)

/-- What a local effect does to the state: it changes the value of a variable, changes an object, or
takes it away. -/
inductive Patch where
  | value (name : String) (change : Float → Float)
  | object (id : ObjectId) (change : GameObject → GameObject)
  | remove (id : ObjectId)

namespace Patch

def variableName? : Patch → Option String
  | .value name _ => some name
  | _ => none

def objectId? : Patch → Option ObjectId
  | .object id _ => some id
  | .remove id => some id
  | _ => none

def apply (s : State) : Patch → State
  | .value name change =>
    { s with variableValues := s.variableValues.insert name (change (s.read name)) }
  | .object id change => s.editObject id change
  | .remove id =>
    { s with
      world :=
        { s.world with
          objects := s.world.objects.erase id
          tracking := if s.world.objects.contains id then (s.world.tracking.untrack id).2
            else s.world.tracking } }

theorem apply_alike {s s' : State} (q : Patch) (h : s.Alike s') :
    (q.apply s).Alike (q.apply s') := by
  rw [h]
  cases q <;> rfl

theorem read_insert (s : State) {name name' : String} (h : name' ≠ name) (value : Float) :
    { s with variableValues := s.variableValues.insert name value : State }.read name' =
      s.read name' := by
  simp only [State.read, Table.get?_insert_of_ne s.variableValues value h]

/-- Patches of different places commute. -/
theorem apply_comm {q r : Patch}
    (hvariables : ∀ name, q.variableName? = some name → r.variableName? ≠ some name)
    (hobjects : ∀ id, q.objectId? = some id → r.objectId? ≠ some id) (s : State) :
    q.apply (r.apply s) = r.apply (q.apply s) := by
  cases q with
  | value name f =>
    cases r with
    | value name' g =>
      have hne : name ≠ name' := fun heq => hvariables name rfl (heq ▸ rfl)
      simp only [apply, read_insert s hne, read_insert s hne.symm,
        Table.insert_comm s.variableValues hne.symm]
    | _ => rfl
  | object id f =>
    cases r with
    | value name g => rfl
    | object id' g =>
      have hne : id ≠ id' := fun heq => hobjects id rfl (heq ▸ rfl)
      simp only [apply, State.editObject, Table.modify_comm s.world.objects hne.symm]
    | remove id' =>
      have hne : id ≠ id' := fun heq => hobjects id rfl (heq ▸ rfl)
      simp only [apply, State.editObject, Table.modify_erase_comm s.world.objects hne,
        Table.contains_modify]
  | remove id =>
    cases r with
    | value name g => rfl
    | object id' g =>
      have hne : id ≠ id' := fun heq => hobjects id rfl (heq ▸ rfl)
      simp only [apply, State.editObject, Table.modify_erase_comm s.world.objects hne.symm,
        Table.contains_modify]
    | remove id' =>
      have hne : id ≠ id' := fun heq => hobjects id rfl (heq ▸ rfl)
      simp only [apply, Table.erase_comm s.world.objects id id',
        Table.contains_erase_of_ne s.world.objects hne,
        Table.contains_erase_of_ne s.world.objects hne.symm]
      split <;> split <;> first | rfl | rw [Tracking.untrack_comm s.world.tracking hne]

end Patch

/-- The patch of a local effect. Writes to variables without name and unreadable colours change
nothing. -/
def Effect.patch? : Effect → Option Patch
  | .move id dx dy =>
    some (.object id fun o => { o with x := o.x + Number.narrow dx, y := o.y + Number.narrow dy })
  | .teleport id x y =>
    some (.object id fun o => { o with x := Number.narrow x, y := Number.narrow y })
  | .setVisible id visible => some (.object id fun o => { o with visible })
  | .destroy id => some (.remove id)
  | .setColor id color =>
    match Color.ofText color with
    | .ok color => some (.object id fun o => { o with color })
    | .error _ => none
  | .setVariable name value => if name.isEmpty then none else some (.value name fun _ => value)
  | .changeVariable name delta => if name.isEmpty then none else some (.value name (· + delta))
  | _ => none

theorem Effect.mem_variableNames {e : Effect} {q : Patch} (h : e.patch? = some q) {name : String}
    (hname : q.variableName? = some name) : name ∈ (Action.effect e).variableNames := by
  refine Option.mem_toList.2 ?_
  cases e <;> grind [Effect.patch?, Effect.variableName?, Patch.variableName?]

theorem Effect.mem_objectIds {e : Effect} {q : Patch} (h : e.patch? = some q) {id : ObjectId}
    (hid : q.objectId? = some id) : id ∈ (Action.effect e).objectIds := by
  refine Option.mem_toList.2 ?_
  cases e <;> grind [Effect.patch?, Effect.objectId?, Patch.objectId?]

theorem Action.mem_variableNames {a : Action} {c : Condition} (h : a.condition? = some c) :
    c.variableName ∈ a.variableNames := by
  cases a <;> simp_all [variableNames, condition?]

def Effect.patched (e : Effect) (s : State) : State := e.patch?.elim s (Patch.apply s)

theorem State.Alike.patched {s s' : State} (h : s.Alike s') (e : Effect) :
    (e.patched s).Alike (e.patched s') := by
  unfold Effect.patched
  cases e.patch? with
  | none => exact h
  | some q => exact q.apply_alike h

theorem State.Alike.perform {s s' : State} (h : s.Alike s') (p : Program)
    (m m' : Moment) (origin : String) (e : Effect) :
    (perform p m none origin e s).Alike (perform p m' none origin e s') := by
  obtain ⟨o, -, hperform⟩ := perform_withUnread p origin e s
  have hfirst := hperform m s.unread
  rw [State.withUnread_unread] at hfirst
  rw [h, hfirst, hperform m' s'.unread]
  rfl

theorem keeps_alike (p : Program) (P : Action → Prop) : Keeps p P State.Alike where
  alike h ht ht' := ht.symm.trans (h.trans ht')
  effect _ m origin _ _ h := h.perform p m m origin _
  holds _ _ _ _ h := h.holds_eq _
  chance _ s s' h := by
    refine ⟨h.random_eq, ?_⟩
    rw [h]
    rfl

/-- Two properties of actions that keep to different variables and objects. -/
structure Apart (P Q : Action → Prop) : Prop where
  isLocal : ∀ a, P a ∨ Q a → a.isLocal = true
  variableNames : ∀ a b, P a → Q b → a.variableNames.Disjoint b.variableNames
  objectIds : ∀ a b, P a → Q b → a.objectIds.Disjoint b.objectIds

theorem Apart.symm {P Q : Action → Prop} (h : Apart P Q) : Apart Q P where
  isLocal a ha := h.isLocal a ha.symm
  variableNames a b ha hb := (h.variableNames b a hb ha).symm
  objectIds a b ha hb := (h.objectIds b a hb ha).symm

/-- A local action that names no other variables and objects than these. -/
structure Action.KeepsTo (variableNames : List String) (objectIds : List ObjectId)
    (a : Action) : Prop where
  isLocal : a.isLocal = true
  variableNames : a.variableNames ⊆ variableNames
  objectIds : a.objectIds ⊆ objectIds

theorem apart_of_within {p : Program} {A B : List Action} {names names' : List String}
    {ids ids' : List ObjectId} (hA : p.Within (·.KeepsTo names ids) A)
    (hB : p.Within (·.KeepsTo names' ids') B) (hnames : names.Disjoint names')
    (hids : ids.Disjoint ids') : Apart (p.Uses A) (p.Uses B) where
  isLocal a ha := ha.elim (fun ha => (hA a ha).isLocal) fun ha => (hB a ha).isLocal
  variableNames a b ha hb _ hfirst hsecond :=
    hnames ((hA a ha).variableNames hfirst) ((hB b hb).variableNames hsecond)
  objectIds a b ha hb _ hfirst hsecond :=
    hids ((hA a ha).objectIds hfirst) ((hB b hb).objectIds hsecond)

/-- A change of the state that actions with a property do not notice. -/
structure Unnoticed (p : Program) (P : Action → Prop) (T : State → State) : Prop where
  alike : ∀ {s s'}, s.Alike s' → (T s).Alike (T s')
  effect : ∀ {e}, P (.effect e) → ∀ m origin s,
    (T (perform p m none origin e s)).Alike (perform p m none origin e (T s))
  holds : ∀ {a c}, P a → a.condition? = some c → ∀ s, (T s).holds c = s.holds c

/-- A change of the state that is made of actions with a property: it keeps all that these actions
keep. -/
def MadeOf (p : Program) (P : Action → Prop) (T : State → State) : Prop :=
  ∀ R, Keeps p P R → ∀ s s', R s s' → R (T s) (T s')

section
variable {p : Program} {P Q : Action → Prop} {T U : State → State}

theorem Unnoticed.keeps (hT : Unnoticed p P T) (hlocal : ∀ a, P a → a.isLocal = true) :
    Keeps p P fun s s' => (T s).Alike s' where
  alike h ht ht' := (hT.alike ht).symm.trans (h.trans ht')
  effect he m origin _ _ h := (hT.effect he m origin _).trans (h.perform p m m origin _)
  holds ha hc _ _ h := (h.holds_eq _).trans (hT.holds ha hc _)
  chance ha := absurd (hlocal _ ha) (by simp [Action.isLocal])

variable (hp : ∀ name, p.watchers.get? name = none)
include hp

/-- A local effect is its patch, but for what it puts out. -/
theorem perform_alike_patched {e : Effect} (he : (Action.effect e).isLocal = true)
    (m : Moment) (origin : String) (s : State) :
    (perform p m none origin e s).Alike (e.patched s) := by
  have hstore : ∀ name value, name ≠ scoreVariable →
      write p m none origin name value s =
        { s with variableValues := s.variableValues.insert name value } := by
    intro name value hname
    simp only [write, hp, State.store, if_neg hname]
  cases e with
  | setVariable name value =>
    simp only [perform, Effect.patched, Effect.patch?]
    split
    · exact .refl s
    · rw [hstore name value (Action.ne_scoreVariable he (List.mem_singleton_self name))]
      exact .refl _
  | changeVariable name delta =>
    simp only [perform, Effect.patched, Effect.patch?]
    split
    · exact .refl s
    · rw [hstore name _ (Action.ne_scoreVariable he (List.mem_singleton_self name))]
      exact .refl _
  | destroy id =>
    simp only [perform, World.destroyObject, Effect.patched, Effect.patch?,
      Option.elim_some, Patch.apply]
    split
    · exact State.Alike.symm rfl
    · rename_i hid
      rw [Table.erase_of_not_contains hid]
      exact .refl s
  | setColor id color =>
    simp only [perform, Effect.patched, Effect.patch?]
    cases Color.ofText color with
    | ok color =>
      simp only [Option.elim_some, Patch.apply]
      split
      · exact .refl _
      · rename_i hid
        rw [State.editObject, Table.modify, Option.not_isSome_iff_eq_none.1 hid]
        exact .refl s
    | error err =>
      simp only [Option.elim_none]
      split
      · exact (s.fault_alike ..).symm
      · exact .refl s
  | addScore => simp [Action.isLocal] at he
  | setScore => simp [Action.isLocal] at he
  | showMessage => simp [Action.isLocal] at he
  | endGame => simp [Action.isLocal] at he
  | _ => exact .refl _

theorem Apart.unnoticed_effect (h : Apart P Q) {e : Effect} (he : Q (.effect e)) (m : Moment)
    (origin : String) :
    Unnoticed p P (perform p m none origin e) where
  alike hs := hs.perform p m m origin e
  effect {f} hf m' origin' s := by
    have hpatched : ∀ {e}, P (.effect e) ∨ Q (.effect e) → ∀ m origin s,
        (perform p m none origin e s).Alike (e.patched s) := fun he m origin s =>
      perform_alike_patched hp (h.isLocal _ he) m origin s
    have hcomm : e.patched (f.patched s) = f.patched (e.patched s) := by
      unfold Effect.patched
      cases hq : e.patch? with
      | none => rfl
      | some q =>
        cases hr : f.patch? with
        | none => rfl
        | some r =>
          refine Patch.apply_comm (fun name hname hname' => ?_) (fun id hid hid' => ?_) s
          · exact h.variableNames _ _ hf he (Effect.mem_variableNames hr hname')
              (Effect.mem_variableNames hq hname)
          · exact h.objectIds _ _ hf he (Effect.mem_objectIds hr hid') (Effect.mem_objectIds hq hid)
    have hfirst : (perform p m none origin e (perform p m' none origin' f s)).Alike
        (e.patched (f.patched s)) :=
      (hpatched (.inr he) m origin _).trans ((hpatched (.inl hf) m' origin' s).patched e)
    have hsecond : (perform p m' none origin' f (perform p m none origin e s)).Alike
        (f.patched (e.patched s)) :=
      (hpatched (.inl hf) m' origin' _).trans ((hpatched (.inr he) m origin s).patched f)
    rw [hcomm] at hfirst
    exact hfirst.trans hsecond.symm
  holds {a c} ha hc s := by
    have hread : (e.patched s).read c.variableName = s.read c.variableName := by
      unfold Effect.patched
      cases hq : e.patch? with
      | none => rfl
      | some q =>
        cases q with
        | value name change =>
          have hname : c.variableName ≠ name := by
            rintro rfl
            exact h.variableNames _ _ ha he (Action.mem_variableNames hc)
              (Effect.mem_variableNames hq rfl)
          exact Patch.read_insert s hname _
        | _ => rfl
    rw [(perform_alike_patched hp (h.isLocal _ (.inr he)) m origin s).symm.holds_eq]
    exact congrArg c.holds hread

/-- What is made of actions that keep to other variables and objects goes unnoticed. Related are a
state and what the change makes of it: the actions keep that relation and what conditions say, and
so the change does. -/
theorem MadeOf.unnoticed (hU : MadeOf p Q U) (h : Apart P Q) : Unnoticed p P U where
  alike hs := hU _ (keeps_alike p Q) _ _ hs
  effect he m origin s := by
    have hkeeps := (h.symm.unnoticed_effect hp he m origin).keeps fun a ha => h.isLocal a (.inr ha)
    exact (hU _ hkeeps s _ (.refl _)).symm
  holds {a c} ha hc s := by
    have hkeeps : Keeps p Q fun t t' => t.Alike t' ∧ t.holds c = s.holds c := {
      alike := fun ht hs hs' => ⟨(keeps_alike p Q).alike ht.1 hs hs', (hs.holds_eq c).trans ht.2⟩
      effect := fun he m origin _ _ ht =>
        ⟨ht.1.perform p m m origin _,
          ((h.unnoticed_effect hp he m origin).holds ha hc _).trans ht.2⟩
      holds := fun _ _ _ _ ht => ht.1.holds_eq _
      chance := fun hb => absurd (h.isLocal _ (.inr hb)) (by simp [Action.isLocal]) }
    exact (hU _ hkeeps s s ⟨.refl s, rfl⟩).2

end

end Script

end BlockStudio
