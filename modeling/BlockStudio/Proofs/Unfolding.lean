import BlockStudio.Proofs.Plays
import Mathlib.Data.List.Forall2

/-!
Action lists in which calls are replaced by the bodies of the functions, and loops by the copies of
their bodies. What was a stack of frames is then one longer list, so a stack and its unfolding
differ in height; the unfolding waits while the stack enters or leaves a body. Main statement: an
unfolding keeps up with every step that does not call too deep.
-/
namespace BlockStudio

namespace Table
variable {α β : Type} {R : α → β → Prop} {t : Table α} {t' : Table β}

/-- Two tables have the same names, and related values under each. -/
def Related (R : α → β → Prop) (t : Table α) (t' : Table β) : Prop :=
  List.Forall₂ (fun e e' => e.1 = e'.1 ∧ R e.2 e'.2) t.entries t'.entries

theorem related_get?_none (h : t.Related R t') {name : String} (hname : t.get? name = none) :
    t'.get? name = none := by
  unfold Related at h
  unfold get? at hname ⊢
  generalize t.entries = es at h hname
  generalize t'.entries = es' at h
  induction h with
  | nil => rfl
  | cons he _ ih =>
    simp only [search, ← he.1] at hname ⊢
    split at hname
    · contradiction
    · rename_i hne
      rw [if_neg hne]
      exact ih hname

theorem related_get?_some (h : t.Related R t') {name : String} {x : α}
    (hname : t.get? name = some x) :
    ∃ y, t'.get? name = some y ∧ R x y := by
  unfold Related at h
  unfold get? at hname ⊢
  generalize t.entries = es at h hname
  generalize t'.entries = es' at h
  induction h with
  | nil => contradiction
  | cons he _ ih =>
    simp only [search, ← he.1] at hname ⊢
    split at hname
    · rename_i heq
      cases hname
      exact ⟨_, if_pos heq, he.2⟩
    · rename_i hne
      obtain ⟨y, hy, hxy⟩ := ih hname
      exact ⟨y, by rw [if_neg hne, hy], hxy⟩

end Table

namespace Script

/-- The second list does what the first does, with some of its calls and loops written out. -/
inductive Unfolds (p : Program) : List Action → List Action → Prop
  | nil : Unfolds p [] []
  | effect (e : Effect) {rest rest' : List Action} (hrest : Unfolds p rest rest') :
    Unfolds p (.effect e :: rest) (.effect e :: rest')
  | wait (seconds : Float) {rest rest' : List Action} (hrest : Unfolds p rest rest') :
    Unfolds p (.wait seconds :: rest) (.wait seconds :: rest')
  | call (name : String) {rest rest' : List Action} (hrest : Unfolds p rest rest') :
    Unfolds p (.call name :: rest) (.call name :: rest')
  | whenTrue (c : Condition) {body body' rest rest' : List Action} (hbody : Unfolds p body body')
    (hrest : Unfolds p rest rest') :
      Unfolds p (.whenTrue c body :: rest) (.whenTrue c body' :: rest')
  | choose (c : Condition) {body body' otherwise otherwise' rest rest' : List Action}
    (hbody : Unfolds p body body') (hotherwise : Unfolds p otherwise otherwise')
    (hrest : Unfolds p rest rest') :
    Unfolds p (.choose c body otherwise :: rest) (.choose c body' otherwise' :: rest')
  | chance (percent : Float) {body body' rest rest' : List Action} (hbody : Unfolds p body body')
    (hrest : Unfolds p rest rest') :
      Unfolds p (.chance percent body :: rest) (.chance percent body' :: rest')
  | repeatTimes (times : Nat) {body body' rest rest' : List Action} (hbody : Unfolds p body body')
    (hrest : Unfolds p rest rest') :
      Unfolds p (.repeatTimes times body :: rest) (.repeatTimes times body' :: rest')
  | repeatWhile (c : Condition) {body body' rest rest' : List Action} (hbody : Unfolds p body body')
    (hrest : Unfolds p rest rest') :
      Unfolds p (.repeatWhile c body :: rest) (.repeatWhile c body' :: rest')
  | inline {name : String} {body body' rest rest' : List Action}
    (hfunction : p.functions.get? name = some body) (hbody : Unfolds p body body')
    (hrest : Unfolds p rest rest') : Unfolds p (.call name :: rest) (body' ++ rest')
  | unroll {times : Nat} {body body' rest rest' : List Action}
    (hinterval : p.limits.loopYieldInterval = 0 ∨
      min times p.limits.loopCeiling ≤ p.limits.loopYieldInterval) (hbody : Unfolds p body body')
      (hrest : Unfolds p rest rest') :
    Unfolds p (.repeatTimes times body :: rest)
      ((List.replicate (min times p.limits.loopCeiling) body').flatten ++ rest')

/-- The second stack does what the first does. A frame of a body that is written out is the
beginning of the sequence below it, and so are the rounds that a loop which is written out has
left. -/
inductive StackUnfolds (p : Program) : Stack → Stack → Prop
  | nil : StackUnfolds p [] []
  | sequence (isCall : Bool) {rest rest' : List Action} {below below' : Stack}
    (hrest : Unfolds p rest rest') (hbelow : StackUnfolds p below below') :
    StackUnfolds p (.sequence rest isCall :: below) (.sequence rest' isCall :: below')
  | counted (times done yieldedAt : Nat) {body body' : List Action} {below below' : Stack}
    (hbody : Unfolds p body body') (hbelow : StackUnfolds p below below') :
    StackUnfolds p (.counted body times done yieldedAt :: below)
      (.counted body' times done yieldedAt :: below')
  | conditional (c : Condition) (done yieldedAt : Nat) {body body' : List Action}
    {below below' : Stack} (hbody : Unfolds p body body') (hbelow : StackUnfolds p below below') :
    StackUnfolds p (.conditional c body done yieldedAt :: below)
      (.conditional c body' done yieldedAt :: below')
  | body (isCall isCall' : Bool) {rest rest' after : List Action} {below below' : Stack}
    (hrest : Unfolds p rest rest')
    (hbelow : StackUnfolds p below (.sequence after isCall' :: below')) :
    StackUnfolds p (.sequence rest isCall :: below) (.sequence (rest' ++ after) isCall' :: below')
  | rounds (isCall : Bool) (done yieldedAt : Nat) {times : Nat} {body body' after : List Action}
    {below below' : Stack}
    (hinterval : p.limits.loopYieldInterval = 0 ∨ times ≤ p.limits.loopYieldInterval)
    (hbody : Unfolds p body body')
    (hbelow : StackUnfolds p below (.sequence after isCall :: below')) :
    StackUnfolds p (.counted body times done yieldedAt :: below)
      (.sequence ((List.replicate (times - done) body').flatten ++ after) isCall :: below')

structure ProgramUnfolds (p p' : Program) : Prop where
  limits : p'.limits = p.limits
  functions : p.functions.Related (Unfolds p) p'.functions
  watchers : p.watchers.Related (List.Forall₂ (Unfolds p)) p'.watchers

/-- Whether a stack goes on with a call of a function that is one call too deep. -/
def callsTooDeep (p : Program) : Stack → Bool
  | .sequence (.call name :: rest) isCall :: below =>
    p.functions.contains name && p.limits.maxCallDepth ≤ callDepth (.sequence rest isCall :: below)
  | _ => false

section
variable {p p' : Program} {m : Moment} {origin : String}

mutual

theorem Unfolds.cons_refl (p : Program) (a : Action) (rest : List Action)
    (hrest : Unfolds p rest rest) :
    Unfolds p (a :: rest) (a :: rest) := by
  cases a with
  | effect e => exact .effect e hrest
  | wait seconds => exact .wait seconds hrest
  | call name => exact .call name hrest
  | whenTrue c body => exact .whenTrue c (Unfolds.refl p body) hrest
  | choose c body otherwise =>
    exact .choose c (Unfolds.refl p body) (Unfolds.refl p otherwise) hrest
  | chance percent body => exact .chance percent (Unfolds.refl p body) hrest
  | repeatTimes times body => exact .repeatTimes times (Unfolds.refl p body) hrest
  | repeatWhile c body => exact .repeatWhile c (Unfolds.refl p body) hrest
termination_by structural a

theorem Unfolds.refl (p : Program) (actions : List Action) : Unfolds p actions actions := by
  cases actions with
  | nil => exact .nil
  | cons a rest => exact Unfolds.cons_refl p a rest (Unfolds.refl p rest)
termination_by structural actions

end

theorem Unfolds.append {first first' second second' : List Action} (hfirst : Unfolds p first first')
    (hsecond : Unfolds p second second') : Unfolds p (first ++ second) (first' ++ second') := by
  induction hfirst with
  | nil => exact hsecond
  | effect e _ ih => exact .effect e ih
  | wait seconds _ ih => exact .wait seconds ih
  | call name _ ih => exact .call name ih
  | whenTrue c hbody _ _ ih => exact .whenTrue c hbody ih
  | choose c hbody hotherwise _ _ _ ih => exact .choose c hbody hotherwise ih
  | chance percent hbody _ _ ih => exact .chance percent hbody ih
  | repeatTimes times hbody _ _ ih => exact .repeatTimes times hbody ih
  | repeatWhile c hbody _ _ ih => exact .repeatWhile c hbody ih
  | inline hfunction hbody _ _ ih =>
    rw [List.append_assoc]
    exact .inline hfunction hbody ih
  | unroll hinterval hbody _ _ ih =>
    rw [List.append_assoc]
    exact .unroll hinterval hbody ih

/-- A call that is too deep records a fault. -/
theorem advance_of_callsTooDeep (cascade : Cascade) {stack : Stack} (s : State)
    (h : callsTooDeep p stack = true) :
    ∃ name rest, advance p m cascade origin stack s =
      .running rest
        (s.fault m origin .callFunc ("call depth limit reached calling '" ++ name ++ "'")) := by
  unfold callsTooDeep at h
  split at h
  · rename_i name rest isCall below
    simp only [Bool.and_eq_true, decide_eq_true_eq, Table.contains, Option.isSome_iff_exists] at h
    obtain ⟨⟨body, hbody⟩, hdeep⟩ := h
    refine ⟨name, .sequence rest isCall :: below, ?_⟩
    simp only [advance, act, hbody]
    rw [if_neg (by omega)]
  · contradiction

namespace StackUnfolds

/-- Written out bodies of functions are no calls. -/
theorem callDepth_le {stack stack' : Stack} (h : StackUnfolds p stack stack') :
    callDepth stack' ≤ callDepth stack := by
  induction h with
  | nil => exact Nat.le_refl _
  | sequence isCall _ _ ih => simpa using ih
  | counted times done yieldedAt _ _ ih => simpa using ih
  | conditional c done yieldedAt _ _ ih => simpa using ih
  | body isCall isCall' _ _ ih =>
    simp only [callDepth_sequence] at ih ⊢
    omega
  | rounds isCall done yieldedAt _ _ _ ih => simpa using ih

/-- What unfolds a sequence of actions is a sequence that begins with the unfolded actions, and it
stays so whatever actions are left. -/
theorem sequence_inv {rest : List Action} {isCall : Bool} {below stack' : Stack}
    (h : StackUnfolds p (.sequence rest isCall :: below) stack') :
    ∃ rest' after isCall' below', stack' = .sequence (rest' ++ after) isCall' :: below' ∧
      Unfolds p rest rest' ∧
      ∀ next next', Unfolds p next next' →
        StackUnfolds p (.sequence next isCall :: below)
          (.sequence (next' ++ after) isCall' :: below') := by
  cases h with
  | sequence _ hrest hbelow =>
    refine ⟨_, [], isCall, _, by rw [List.append_nil], hrest, ?_⟩
    intro next next' hnext
    rw [List.append_nil]
    exact .sequence isCall hnext hbelow
  | body _ isCall' hrest hbelow =>
    exact ⟨_, _, isCall', _, rfl, hrest, fun _ _ hnext => .body _ isCall' hnext hbelow⟩

end StackUnfolds

/-- How an unfolding keeps up with a step: it takes the same step, or waits while the stack only
changes its shape. -/
inductive KeepsUp (p p' : Program) (m : Moment) (origin : String) (s : State)
    (stack stack' : Stack) : Progress → Prop
  | finished (s₁ : State) (h : advance p' m none origin stack' s = .finished s₁)
    (hunwatched : watchedWrite? p s stack = none → watchedWrite? p' s stack' = none) :
    KeepsUp p p' m origin s stack stack' (.finished s₁)
  | suspended (wake : Wake) (s₁ : State) {stack₁ stack₁' : Stack}
    (h : advance p' m none origin stack' s = .suspended wake stack₁' s₁)
      (hstack : StackUnfolds p stack₁ stack₁')
      (hunwatched : watchedWrite? p s stack = none → watchedWrite? p' s stack' = none) :
    KeepsUp p p' m origin s stack stack' (.suspended wake stack₁ s₁)
  | running (s₁ : State) {stack₁ stack₁' : Stack}
    (h : advance p' m none origin stack' s = .running stack₁' s₁)
      (hstack : StackUnfolds p stack₁ stack₁')
      (hunwatched : watchedWrite? p s stack = none → watchedWrite? p' s stack' = none) :
    KeepsUp p p' m origin s stack stack' (.running stack₁ s₁)
  | waiting {stack₁ : Stack} (hstack : StackUnfolds p stack₁ stack') :
    KeepsUp p p' m origin s stack stack' (.running stack₁ s)

theorem write_unfolds (hp : ProgramUnfolds p p') (name : String) (value : Float) (s : State) :
    write p' m none origin name value s = write p m none origin name value s := by
  simp only [write]
  cases hlists : p.watchers.get? name with
  | none => rw [Table.related_get?_none hp.watchers hlists]
  | some lists =>
    obtain ⟨lists', hlists', -⟩ := Table.related_get?_some hp.watchers hlists
    rw [hlists']

theorem perform_unfolds (hp : ProgramUnfolds p p') (e : Effect) (s : State) :
    perform p' m none origin e s = perform p m none origin e s := by
  cases e <;> simp only [perform, write_unfolds hp]

/-- A watched write of a stack is one of its unfolding, with the unfolded watchers. -/
theorem watchedWrite?_unfolds (hp : ProgramUnfolds p p') {s : State} {stack stack' : Stack}
    {w : WatchedWrite} (h : StackUnfolds p stack stack') (hw : watchedWrite? p s stack = some w) :
    ∃ lists' stack₁', watchedWrite? p' s stack' = some ⟨w.name, w.value, lists', stack₁'⟩ ∧
      List.Forall₂ (Unfolds p) w.lists lists' ∧ StackUnfolds p w.stack stack₁' := by
  unfold watchedWrite? at hw
  split at hw
  · rename_i e rest isCall below
    simp only [Option.bind_eq_bind, Option.bind_eq_some_iff, Option.some.injEq] at hw
    obtain ⟨⟨name, value⟩, hwrite, lists, hlists, rfl⟩ := hw
    obtain ⟨lists', hlists', hunfolds⟩ := Table.related_get?_some hp.watchers hlists
    obtain ⟨actions', after, isCall', below', rfl, hactions, hsequence⟩ := h.sequence_inv
    cases hactions with
    | effect _ hrest =>
      refine ⟨lists', _, ?_, hunfolds, hsequence _ _ hrest⟩
      simp only [List.cons_append, watchedWrite?, hwrite, hlists',
        Option.bind_eq_bind, Option.bind_some]
  · contradiction

theorem unwatched_effect (hp : ProgramUnfolds p p') {s : State} (e : Effect)
    {rest rest' : List Action} {isCall isCall' : Bool} {below below' : Stack}
    (h : watchedWrite? p s (.sequence (.effect e :: rest) isCall :: below) = none) :
    watchedWrite? p' s (.sequence (.effect e :: rest') isCall' :: below') = none := by
  simp only [watchedWrite?, Option.bind_eq_bind, Option.bind_eq_none_iff] at h ⊢
  intro write hwrite lists' hlists'
  cases hlists : p.watchers.get? write.1 with
  | none => rw [Table.related_get?_none hp.watchers hlists] at hlists'; contradiction
  | some lists => cases h write hwrite lists hlists

theorem keepsUp_call (hp : ProgramUnfolds p p') (name : String) {rest rest' after : List Action}
    {isCall isCall' : Bool} {below below' : Stack} (s : State)
    (hhere : StackUnfolds p (.sequence rest isCall :: below)
      (.sequence (rest' ++ after) isCall' :: below'))
    (hshallow : callsTooDeep p (.sequence (.call name :: rest) isCall :: below) = false) :
    KeepsUp p p' m origin s (.sequence (.call name :: rest) isCall :: below)
      (.sequence (.call name :: rest' ++ after) isCall' :: below')
      (act p m none origin (.call name) (.sequence rest isCall :: below) s) := by
  cases hname : p.functions.get? name with
  | none =>
    have hname' : p'.functions.get? name = none := Table.related_get?_none hp.functions hname
    simp only [act, hname]
    refine .running s ?_ hhere fun _ => rfl
    simp only [List.cons_append, advance, act, hname']
  | some body =>
    obtain ⟨body', hname', hbody⟩ := Table.related_get?_some hp.functions hname
    have hdepth : callDepth (.sequence rest isCall :: below) < p.limits.maxCallDepth := by
      simpa [callsTooDeep, Table.contains, hname] using hshallow
    have hdepth' := Nat.lt_of_le_of_lt hhere.callDepth_le hdepth
    simp only [act, hname]
    rw [if_pos hdepth]
    refine .running s ?_ (.sequence true hbody hhere) fun _ => rfl
    simp only [List.cons_append, advance, act, hname', hp.limits]
    rw [if_pos hdepth']

/-- Only the actions that are written out make the unfolding wait. -/
theorem keepsUp_action (hp : ProgramUnfolds p p') {a : Action} {rest : List Action} {isCall : Bool}
    {below stack' : Stack} (s : State)
    (h : StackUnfolds p (.sequence (a :: rest) isCall :: below) stack')
    (hshallow : callsTooDeep p (.sequence (a :: rest) isCall :: below) = false) :
    KeepsUp p p' m origin s (.sequence (a :: rest) isCall :: below) stack'
      (act p m none origin a (.sequence rest isCall :: below) s) := by
  obtain ⟨actions', after, isCall', below', rfl, hactions, hsequence⟩ := h.sequence_inv
  cases hactions with
  | effect e hrest =>
    refine .running _ ?_ (hsequence _ _ hrest) (unwatched_effect hp e)
    simp only [List.cons_append, advance, act, perform_unfolds hp]
  | wait seconds hrest => exact .suspended _ s rfl (hsequence _ _ hrest) fun _ => rfl
  | call name hrest => exact keepsUp_call hp name s (hsequence _ _ hrest) hshallow
  | whenTrue c hbody hrest =>
    have hhere := hsequence _ _ hrest
    refine .running s rfl ?_ fun _ => rfl
    split
    · exact .sequence false hbody hhere
    · exact hhere
  | choose c hbody hotherwise hrest =>
    refine .running s rfl (.sequence false ?_ (hsequence _ _ hrest)) fun _ => rfl
    split
    · exact hbody
    · exact hotherwise
  | chance percent hbody hrest =>
    have hhere := hsequence _ _ hrest
    refine .running _ rfl ?_ fun _ => rfl
    split
    · exact .sequence false hbody hhere
    · exact hhere
  | repeatTimes times hbody hrest =>
    refine .running s ?_ (.counted _ 0 0 hbody (hsequence _ _ hrest)) fun _ => rfl
    simp only [List.cons_append, advance, act, hp.limits]
  | repeatWhile c hbody hrest =>
    exact .running s rfl (.conditional c 0 0 hbody (hsequence _ _ hrest)) fun _ => rfl
  | inline hfunction hbody hrest =>
    have hdepth : callDepth (.sequence rest isCall :: below) < p.limits.maxCallDepth := by
      simpa [callsTooDeep, Table.contains, hfunction] using hshallow
    simp only [act, hfunction]
    rw [if_pos hdepth, List.append_assoc]
    exact .waiting (.body true isCall' hbody (hsequence _ _ hrest))
  | unroll hinterval hbody hrest =>
    rw [List.append_assoc]
    exact .waiting (.rounds isCall' 0 0 hinterval hbody (hsequence _ _ hrest))

theorem keepsUp_counted (hp : ProgramUnfolds p p') {times done yieldedAt : Nat} {body : List Action}
    {below stack' : Stack} (s : State)
    (h : StackUnfolds p (.counted body times done yieldedAt :: below) stack') :
    KeepsUp p p' m origin s (.counted body times done yieldedAt :: below) stack'
      (advance p m none origin (.counted body times done yieldedAt :: below) s) := by
  simp only [advance]
  cases h with
  | counted _ _ _ hbody hbelow =>
    split
    · rename_i hover
      exact .running s (by simp only [advance, if_pos hover]) hbelow fun _ => rfl
    · rename_i hleft
      split
      · rename_i hyield
        refine .suspended _ s ?_ (.counted times done done hbody hbelow) fun _ => rfl
        simp only [advance, hp.limits, if_neg hleft, if_pos hyield]
      · rename_i hgo
        refine .running s ?_
          (.sequence false hbody (.counted times (done + 1) yieldedAt hbody hbelow)) fun _ => rfl
        simp only [advance, hp.limits, if_neg hleft, if_neg hgo]
        rfl
  | rounds isCall _ _ hinterval hbody hbelow =>
    split
    · rename_i hover
      rw [Nat.sub_eq_zero_of_le hover]
      exact .waiting hbelow
    · rename_i hleft
      obtain ⟨left, hleft'⟩ : ∃ left, times - done = left + 1 := ⟨times - done - 1, by omega⟩
      have hless : times - (done + 1) = left := by omega
      rw [Limits.yieldsAt_of_le yieldedAt hinterval (by omega), if_neg Bool.false_ne_true, hleft',
        List.replicate_succ, List.flatten_cons, List.append_assoc, ← hless]
      exact .waiting
        (.body false isCall hbody (.rounds isCall (done + 1) yieldedAt hinterval hbody hbelow))

theorem keepsUp_conditional (hp : ProgramUnfolds p p') {c : Condition} {done yieldedAt : Nat}
    {body : List Action} {below stack' : Stack} (s : State)
    (h : StackUnfolds p (.conditional c body done yieldedAt :: below) stack') :
    KeepsUp p p' m origin s (.conditional c body done yieldedAt :: below) stack'
      (advance p m none origin (.conditional c body done yieldedAt :: below) s) := by
  simp only [advance]
  cases h with
  | conditional _ _ _ hbody hbelow =>
    split
    · rename_i hover
      exact .running s (by simp only [advance, hp.limits, if_pos hover]) hbelow fun _ => rfl
    · rename_i hleft
      split
      · rename_i hyield
        refine .suspended _ s ?_ (.conditional c done done hbody hbelow) fun _ => rfl
        simp only [advance, hp.limits, if_neg hleft, if_pos hyield]
      · rename_i hgo
        refine .running s ?_
          (.sequence false hbody (.conditional c (done + 1) yieldedAt hbody hbelow)) fun _ => rfl
        simp only [advance, hp.limits, if_neg hleft, if_neg hgo]
        rfl

/-- An unfolding keeps up with every step that does not call too deep. -/
theorem keepsUp (hp : ProgramUnfolds p p') {stack stack' : Stack} (s : State)
    (h : StackUnfolds p stack stack') (hshallow : callsTooDeep p stack = false) :
    KeepsUp p p' m origin s stack stack' (advance p m none origin stack s) := by
  cases stack with
  | nil =>
    cases h
    exact .finished s rfl fun _ => rfl
  | cons frame below =>
    cases frame with
    | sequence actions isCall =>
      cases actions with
      | nil =>
        cases h with
        | sequence _ hrest hbelow =>
          cases hrest
          exact .running s rfl hbelow fun _ => rfl
        | body _ isCall' hrest hbelow =>
          cases hrest
          exact .waiting hbelow
      | cons a rest => exact keepsUp_action hp s h hshallow
    | counted body times done yieldedAt => exact keepsUp_counted hp s h
    | conditional c body done yieldedAt => exact keepsUp_conditional hp s h

end

end Script

end BlockStudio
