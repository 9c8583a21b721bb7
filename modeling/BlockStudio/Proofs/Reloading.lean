import BlockStudio.Proofs.Resaving
import BlockStudio.Proofs.RoundTrip
import BlockStudio.Proofs.Stopping

/-!
Changes of the script's file. A text that another program has written is taken in, and one that the
studio itself has saved is passed over; which of the two it is, the studio tells by the text that it
saved last. Main statement: a frame takes a text in just when it holds a document and is not the
text of the last save, and then the canvas shows that document alone; any other text leaves no
trace.
-/
namespace BlockStudio

namespace Graph

mutual

/-- Rebuilding a block comes to the same from any id on, apart from the ids. -/
theorem map_forget_rebuildBlock (last last' : BlockId) :
    ∀ b : Node, (rebuildBlock last b).1.map Block.forget = (rebuildBlock last' b).1.map Block.forget
  | ⟨_, type, values, children, elseChildren⟩ => by
    simp only [rebuildBlock]
    cases definition? type with
    | none => rfl
    | some d =>
      simp only [Option.map_some, Block.forget]
      rw [forgetSlot_rebuildSlot _ last last' children, forgetSlot_rebuildSlot _ _ _ elseChildren]

theorem forgetSlot_rebuildSlot (wanted : Bool) (last last' : BlockId) :
    ∀ s : Option (List Node),
      Block.forgetSlot (rebuildSlot wanted last s).1 =
        Block.forgetSlot (rebuildSlot wanted last' s).1
  | none => by
    simp only [rebuildSlot]
  | some bs => by
    simp only [rebuildSlot]
    split
    · simp only [Block.forgetSlot]
      rw [forgetList_rebuildList last last' bs]
    · rfl

theorem forgetList_rebuildList (last last' : BlockId) :
    ∀ bs : List Node, Block.forgetList (rebuildList last bs).1 =
      Block.forgetList (rebuildList last' bs).1
  | [] => rfl
  | b :: rest => by
    simp only [rebuildList, Block.forgetList_eq_map, List.map_append, ← Option.toList_map]
    rw [map_forget_rebuildBlock last last' b, ← Block.forgetList_eq_map, ← Block.forgetList_eq_map,
      forgetList_rebuildList _ _ rest]

end

/-- What the chains of a graph hold, apart from ids. -/
def contents (g : Graph) : List DocumentChain :=
  g.chains.map (DocumentChain.content ∘ chainToDocument)

theorem contents_addDocumentChain {g g' : Graph} (h : g.contents = g'.contents)
    (c : DocumentChain) :
    (g.addDocumentChain c).contents = (g'.addDocumentChain c).contents := by
  have hforget := forgetList_rebuildList g.lastBlockId g'.lastBlockId c.blocks
  have hempty : (rebuildList g.lastBlockId c.blocks).1.isEmpty =
      (rebuildList g'.lastBlockId c.blocks).1.isEmpty := by
    simpa [Block.forgetList_eq_map] using congrArg List.isEmpty hforget
  simp only [contents] at h
  simp only [contents, addDocumentChain, addChain, hempty]
  split
  · exact h
  · simp [h, chainToDocument, DocumentChain.content, hforget]

theorem contents_addDocumentChains (cs : List DocumentChain) {g g' : Graph}
    (h : g.contents = g'.contents) :
    (cs.foldl addDocumentChain g).contents = (cs.foldl addDocumentChain g').contents := by
  induction cs generalizing g g' with
  | nil => exact h
  | cons c cs ih => exact ih (contents_addDocumentChain h c)

theorem variableNames_addDocumentVariable {g g' : Graph}
    (h : g.variableNames = g'.variableNames) (name : String) :
    (g.addDocumentVariable name).variableNames = (g'.addDocumentVariable name).variableNames := by
  by_cases hempty : (Text.trim name).isEmpty = true
  · simp [addDocumentVariable, declare, hempty, h]
  · by_cases hrepeated : Text.trim name ∈ g'.variableNames
    · simp [addDocumentVariable, declare, hempty, hrepeated, h]
    · simp [addDocumentVariable, declare, hempty, hrepeated, h]

theorem variableNames_addDocumentVariables_eq (names : List String) {g g' : Graph}
    (h : g.variableNames = g'.variableNames) :
    (names.foldl addDocumentVariable g).variableNames =
      (names.foldl addDocumentVariable g').variableNames := by
  induction names generalizing g g' with
  | nil => exact h
  | cons name names ih => exact ih (variableNames_addDocumentVariable h name)

/-- A graph into which a document is loaded shows that document alone, whatever was in it before. -/
theorem renumber_toDocument_load (g : Graph) (d : Document) :
    (g.load d).toDocument.renumber = d.rebuild := by
  have hcleared : g.clear.contents = empty.clear.contents := rfl
  have hcontents : (g.load d).contents = (ofDocument d).contents := by
    refine contents_addDocumentChains d.chains ?_
    rw [contents, contents, chains_addDocumentVariables, chains_addDocumentVariables]
    exact hcleared
  have hnames : (g.load d).variableNames = (ofDocument d).variableNames := by
    rw [load, ofDocument, load, variableNames_addDocumentChains, variableNames_addDocumentChains]
    exact variableNames_addDocumentVariables_eq d.variableNames rfl
  rw [← Document.renumber_rebuild, Document.rebuild, toDocument_of_wellFormed (.load g d),
    toDocument_of_wellFormed (Document.ofDocument_wellFormed d)]
  refine Document.renumber_congr ?_ hnames
  rw [List.map_map, List.map_map]
  exact hcontents

end Graph

namespace Studio

/-- The studio with other texts of the file that wait to be taken in. -/
def withChanges (s : Studio) (changes : List String) : Studio := { s with changes }

/-- The studio in a frame, when the pointer, the keys and the requests have been answered. -/
def answered (s : Studio) (elapsed : Nat) : Studio :=
  let s := ((s.begun elapsed).syncObjects.drivePointer).answerKeys
  { s with game := s.game.endFrame }

/-- The studio in a frame, when only the texts of the file are left to be taken in. -/
def moved (s : Studio) (elapsed : Nat) : Studio :=
  ((s.answered elapsed).save.draw).movePlayer
    (Clock.secondsSingle (s.prepare.clock.frameTime elapsed))

/-- The studio when a frame has seen what went down and up. -/
def settleButtons (s : Studio) : Studio := { s with keys := s.keys.settle, mouse := s.mouse.settle }

theorem frame_eq_takeChanges (s : Studio) (elapsed : Nat) :
    s.frame elapsed = (s.moved elapsed).takeChanges.settleButtons := rfl

section
variable (s : Studio) (changes : List String)

theorem prepare_withChanges : (s.withChanges changes).prepare = s.prepare.withChanges changes := by
  rw [prepare, prepare, apply_ite (withChanges · changes)]
  rfl

theorem begun_withChanges (elapsed : Nat) :
    (s.withChanges changes).begun elapsed = (s.begun elapsed).withChanges changes := by
  simp only [begun, prepare_withChanges]
  rfl

theorem syncObjects_withChanges :
    (s.withChanges changes).syncObjects = s.syncObjects.withChanges changes := by
  unfold syncObjects
  cases heditor : s.editor with
  | none => simp only [withChanges, heditor]
  | some e => cases hobjects : s.objectsChanged <;> simp [withChanges, heditor, hobjects]

theorem drivePointer_withChanges :
    (s.withChanges changes).drivePointer = s.drivePointer.withChanges changes := by
  unfold drivePointer
  cases heditor : s.editor with
  | none => simp only [withChanges, heditor]
  | some e =>
    cases hwindow : s.window with
    | none => simp only [withChanges, heditor, hwindow]
    | some w =>
      cases hmode : s.game.mode == .editing <;> cases hcursor : s.cursor.bind w.cursor? <;>
        simp [withChanges, heditor, hwindow, hmode, hcursor]

theorem answerKeys_withChanges :
    (s.withChanges changes).answerKeys = s.answerKeys.withChanges changes := by
  rw [answerKeys, answerKeys, apply_ite (withChanges · changes)]
  rfl

theorem answered_withChanges (elapsed : Nat) :
    (s.withChanges changes).answered elapsed = (s.answered elapsed).withChanges changes := by
  simp only [answered, begun_withChanges, syncObjects_withChanges, drivePointer_withChanges,
    answerKeys_withChanges]
  rfl

theorem save_withChanges : (s.withChanges changes).save = s.save.withChanges changes := by
  unfold save
  cases heditor : s.editor with
  | none => simp only [withChanges, heditor]
  | some e =>
    simp only [withChanges, heditor]
    split <;> simp only [heditor]

theorem movePlayer_withChanges (seconds : Float32) :
    (s.withChanges changes).movePlayer seconds = (s.movePlayer seconds).withChanges changes := by
  rw [movePlayer, movePlayer, apply_ite (withChanges · changes)]
  rfl

/-- Nothing but the taking in of texts looks at those that wait. -/
theorem moved_withChanges (elapsed : Nat) :
    (s.withChanges changes).moved elapsed = (s.moved elapsed).withChanges changes := by
  have hdraw : ∀ s : Studio, (s.withChanges changes).draw = s.draw.withChanges changes :=
    fun _ => rfl
  simp only [moved, answered_withChanges, save_withChanges, hdraw, movePlayer_withChanges,
    prepare_withChanges]
  rfl

end

/-- The frame without the texts of the file that wait for it. -/
def plainFrame (s : Studio) (elapsed : Nat) : Studio := (s.withChanges []).frame elapsed

theorem plainFrame_eq (s : Studio) (elapsed : Nat) :
    s.plainFrame elapsed = ((s.moved elapsed).withChanges []).settleButtons := by
  rw [plainFrame, frame_eq_takeChanges, moved_withChanges, takeChanges_of_nil rfl]

/-- The studio with a document taken in. A game that is played starts anew. -/
def takeIn (s : Studio) (d : Document) : Studio :=
  let game : Game := { s.game with active := some d }
  { s with
    editor := s.editor.map (·.load d)
    game := if game.mode == .playing then game.request .restart else game }

theorem reload_of_saved {s : Studio} {source : String} (h : s.file.lastWritten = some source) :
    s.reload source = s := if_pos h

theorem reload_of_error {s : Studio} {source : String} {err : Document.Error}
    (h : Document.ofSource source = .error err) : s.reload source = s := by
  simp only [reload, h, ite_self]

theorem reload_of_ok {s : Studio} {source : String} {d : Document}
    (hsaved : s.file.lastWritten ≠ some source) (h : Document.ofSource source = .ok d) :
    s.reload source = s.takeIn d := by
  simp only [reload, if_neg hsaved, h, takeIn]

theorem settleButtons_reload (s : Studio) (source : String) :
    (s.reload source).settleButtons = s.settleButtons.reload source := by
  by_cases hsaved : s.file.lastWritten = some source
  · rw [reload_of_saved hsaved, reload_of_saved (s := s.settleButtons) hsaved]
  · cases hsource : Document.ofSource source with
    | error err => rw [reload_of_error hsource, reload_of_error hsource]
    | ok d =>
      rw [reload_of_ok hsaved hsource, reload_of_ok (s := s.settleButtons) hsaved hsource]
      rfl

/-- Of the texts that wait, a frame takes in the one that was written last. -/
theorem frame_changeFile {s : Studio} (h : s.changes.length < changesPerFrame)
    (source : String) (elapsed : Nat) :
    (s.handle (.changeFile source)).frame elapsed = (s.plainFrame elapsed).reload source := by
  have hhandle : s.handle (.changeFile source) = s.withChanges (s.changes ++ [source]) := rfl
  have hall : (s.changes ++ [source]).length ≤ changesPerFrame := by
    simpa [Nat.succ_le_iff] using h
  have htake : ((s.moved elapsed).withChanges (s.changes ++ [source])).takeChanges =
      ((s.moved elapsed).withChanges []).reload source := by
    simp only [takeChanges, withChanges, List.take_of_length_le hall, List.drop_of_length_le hall,
      List.getLast?_concat]
  rw [hhandle, frame_eq_takeChanges, moved_withChanges, htake, settleButtons_reload, plainFrame_eq]

/-- The save keys went down for the next frame. -/
def asksToSave (s : Studio) : Bool :=
  (s.keys.isHeld .controlLeft || s.keys.isHeld .controlRight) && s.keys.wentDown .letterS

/-- The text that a frame saves: that of the canvas as the frame leaves it, apart from texts of the
file. -/
def saved? (s : Studio) (elapsed : Nat) : Option String :=
  if s.asksToSave && s.file.writable then (s.plainFrame elapsed).editor.map fun e =>
    e.toDocument.toSource else none

section
variable (s : Studio) (elapsed : Nat)

theorem file_answered : (s.answered elapsed).file = s.file := by
  have hprepare : s.prepare.file = s.file := by
    unfold prepare
    split <;> rfl
  have hsync : ∀ s : Studio, s.syncObjects.file = s.file := fun s => by
    unfold syncObjects
    split
    · rfl
    · split <;> rfl
  have hpointer : ∀ s : Studio, s.drivePointer.file = s.file := fun s => by
    unfold drivePointer
    split
    · split
      · split <;> rfl
      · rfl
    · rfl
  have hkeys : ∀ s : Studio, s.answerKeys.file = s.file := fun s => by
    unfold answerKeys
    split <;> rfl
  exact (((hkeys _).trans (hpointer _)).trans (hsync _)).trans hprepare

theorem keys_answered : (s.answered elapsed).keys = s.keys := by
  have hkeys : ∀ s : Studio, s.answerKeys.keys = s.keys := fun s => by
    unfold answerKeys
    split <;> rfl
  have hpointed :=
    (s.begun elapsed).holds_syncObjects.trans (s.begun elapsed).syncObjects.holds_drivePointer
  obtain ⟨-, -, -, -, hbegun, -⟩ := s.begun_eq elapsed
  exact ((hkeys _).trans hpointed.keys_eq).trans hbegun

theorem editor_moved : (s.moved elapsed).editor = (s.answered elapsed).editor := by
  have hmove : ∀ (s : Studio) (seconds : Float32), (s.movePlayer seconds).editor = s.editor :=
    fun s seconds => by
    unfold movePlayer
    split <;> rfl
  have hsave : ∀ s : Studio, s.save.editor = s.editor := fun s => by
    unfold save
    split
    · rfl
    · dsimp only
      split <;> rfl
  exact (hmove _ _).trans (hsave _)

theorem file_frame : (s.frame elapsed).file = (s.answered elapsed).save.file := by
  have htake : ∀ s : Studio, s.takeChanges.file = s.file := fun s => by
    unfold takeChanges reload
    dsimp only
    repeat' split
    all_goals rfl
  have hmove : ∀ (s : Studio) (seconds : Float32), (s.movePlayer seconds).file = s.file :=
    fun s seconds => by
    unfold movePlayer
    split <;> rfl
  exact (htake _).trans (hmove _ _)

/-- Only what a frame saves changes the text that was saved last. -/
theorem lastWritten_frame :
    (s.frame elapsed).file.lastWritten = (s.saved? elapsed).or s.file.lastWritten := by
  have heditor : (s.plainFrame elapsed).editor = (s.answered elapsed).editor := by
    rw [plainFrame_eq]
    exact s.editor_moved elapsed
  rw [file_frame, saved?, heditor, asksToSave, ← keys_answered s elapsed,
    ← file_answered s elapsed, save]
  cases (s.answered elapsed).editor with
  | none => simp
  | some e =>
    dsimp only
    split <;> rfl

end

/-- The texts that are saved over a run, in order. -/
def savedTexts : Studio → List Input → List String
  | _, [] => []
  | s, .frame elapsed :: inputs => (s.saved? elapsed).toList ++ savedTexts (s.frame elapsed) inputs
  | s, i :: inputs => savedTexts (s.handle i) inputs

theorem file_handle (s : Studio) {i : Input} (hi : ∀ elapsed, i ≠ .frame elapsed) :
    (s.handle i).file = s.file := by
  cases i with
  | frame elapsed => exact absurd rfl (hi elapsed)
  | moveCursor p =>
    simp only [handle, moveCursor]
    split <;> rfl
  | _ => rfl

/-- The studio knows the text that was saved last in its run. -/
theorem lastWritten_foldl (s : Studio) (inputs : List Input) :
    (inputs.foldl handle s).file.lastWritten =
      (s.savedTexts inputs).getLast?.or s.file.lastWritten := by
  fun_induction savedTexts s inputs with
  | case1 s => rfl
  | case2 s elapsed inputs ih =>
    rw [List.foldl_cons, handle_frame, ih, lastWritten_frame, List.getLast?_append, Option.or_assoc]
    cases s.saved? elapsed <;> rfl
  | case3 s i inputs hi ih =>
    rw [List.foldl_cons, ih, file_handle s hi]

/-- A text of the file, written at any time of a run, is taken in by the next frame just when it
holds a document and is not the text that was saved last, in that frame or before; the texts that
were taken in since then do not matter. The canvas then shows the document alone. Any other text
leaves no trace. -/
theorem changes_taken_in (limits : Script.Limits) (random : Random) (scene : Scene)
    (editor : Option Editor) (window : Window) (writable : Bool) (display : Option Display)
    (inputs : List Input) (source : String) (elapsed : Nat) :
    let new := Studio.new scene ⟨limits, random, 0, .empty, none⟩ editor window writable display
    let s := inputs.foldl handle new
    let s' := (s.handle (.changeFile source)).frame elapsed
    let savedLast := (new.savedTexts (inputs ++ [.frame elapsed])).getLast? = some source
    s.changes.length < changesPerFrame →
    (∀ d, Document.ofSource source = .ok d → ¬savedLast →
      s'.game.active = some d ∧ s'.editor = (s.plainFrame elapsed).editor.map (·.load d) ∧
        ∀ e, s'.editor = some e → e.toDocument.renumber = d.rebuild) ∧
    (savedLast ∨ (∀ d, Document.ofSource source ≠ .ok d) → s' = s.plainFrame elapsed) := by
  intro new s s' savedLast hroom
  have hs' : s' = (s.plainFrame elapsed).reload source := frame_changeFile hroom source elapsed
  have hsaved : savedLast ↔ (s.plainFrame elapsed).file.lastWritten = some source := by
    have hplain : (s.plainFrame elapsed).file.lastWritten = (s.frame elapsed).file.lastWritten :=
      (lastWritten_frame (s.withChanges []) elapsed).trans (s.lastWritten_frame elapsed).symm
    have hrun := new.lastWritten_foldl (inputs ++ [.frame elapsed])
    rw [List.foldl_append, List.foldl_cons, List.foldl_nil, handle_frame] at hrun
    rw [hplain, hrun, show new.file.lastWritten = none from rfl, Option.or_none]
  refine ⟨fun d hd hother => ?_, fun hnone => ?_⟩
  · have htaken : s' = (s.plainFrame elapsed).takeIn d := by
      rw [hs', reload_of_ok (mt hsaved.mpr hother) hd]
    rw [htaken]
    refine ⟨?_, rfl, fun e he => ?_⟩
    · simp only [takeIn]
      split <;> rfl
    · obtain ⟨e, -, rfl⟩ := Option.map_eq_some_iff.mp he
      exact Graph.renumber_toDocument_load e.graph d
  · rw [hs']
    rcases hnone with hown | hmalformed
    · exact reload_of_saved (hsaved.mp hown)
    · cases hsource : Document.ofSource source with
      | error err => exact reload_of_error hsource
      | ok d => exact absurd hsource (hmalformed d)

/-- A studio with an empty canvas and a file, in which nothing has happened. -/
def blankCanvas : Studio :=
  .new .empty ⟨.standard, .ofSeed 1, 0, .empty, none⟩ (some .standard) .standard true none

/-- A document alone, with a variable and no chains. -/
def livesSource : String := "\x7b\"variables\":[\"lives\"]\x7d"

/-- The save keys are pressed for a frame. -/
def saveInputs : List Input := [.pressKey .controlLeft, .pressKey .letterS, .frame 0]

/-- After a save, another text of the file is taken in. -/
theorem other_change_taken_in :
    let s := saveInputs.foldl handle blankCanvas
    let s' := (s.handle (.changeFile livesSource)).frame 0
    s.changes.length < changesPerFrame ∧
      (blankCanvas.savedTexts (saveInputs ++ [.frame 0])).getLast? = some Document.empty.toSource ∧
      ∃ d, Document.ofSource livesSource = .ok d ∧ d.variableNames = ["lives"] ∧
        (blankCanvas.savedTexts (saveInputs ++ [.frame 0])).getLast? ≠ some livesSource ∧
        s'.game.active = some d ∧ s'.editor = (s.plainFrame 0).editor.map (·.load d) ∧
          ∀ e, s'.editor = some e → e.toDocument.renumber = d.rebuild := by
  have hmap : (Document.ofSource livesSource).toOption.map (·.variableNames) = some ["lives"] := by
    decide +kernel
  obtain ⟨d, hd, hnames⟩ := Document.exists_of_toOption_map hmap
  have hroom : (saveInputs.foldl handle blankCanvas).changes.length < changesPerFrame := by
    decide +kernel
  have hother : (blankCanvas.savedTexts (saveInputs ++ [.frame 0])).getLast? ≠
      some livesSource := by decide +kernel
  have htaken :=
    changes_taken_in .standard (.ofSeed 1) .empty (some .standard) .standard true none saveInputs
      livesSource 0 hroom
  exact ⟨hroom, by decide +kernel, d, hd, hnames, hother, htaken.1 d hd hother⟩

/-- Another program writes the text of the last save again, after a text of its own was taken in:
the canvas and the active document stay what they were. -/
theorem saved_text_written_again_missed :
    let written := [Input.changeFile livesSource, .frame 0, .changeFile Document.empty.toSource]
    let s := (saveInputs ++ written).foldl handle blankCanvas
    s.changes = [Document.empty.toSource] ∧
      (∃ d, Document.ofSource Document.empty.toSource = .ok d ∧ d.variableNames = []) ∧
      (s.frame 0).game.active.map (·.variableNames) = some ["lives"] ∧
      (s.frame 0).editor.map (·.toDocument.variableNames) = some ["lives"] := by
  have hmap : (Document.ofSource Document.empty.toSource).toOption.map (·.variableNames) =
      some [] := by decide +kernel
  exact ⟨by decide +kernel, Document.exists_of_toOption_map hmap, by decide +kernel,
    by decide +kernel⟩

end Studio

end BlockStudio
