import BlockStudio.Proofs.EditorRuns
import BlockStudio.Proofs.RoundTrip

/-!
Two drags that begin and end alike and go different ways between. What a move leaves behind, the
pointer and the snap target under it, is written anew by the next move, and the drop begins with a
move. Main statement: the way of the pointer touches neither the outcome of the drop nor the editor
after it.
-/
namespace BlockStudio

namespace Drag

/-- What the pointer carries, wherever it is: the group, and where it is grabbed. -/
def held (d : Drag) : List PlacedBlock × Point := (d.blocks, d.grabOffset)

end Drag

namespace Editor

/-- Editors that are alike but for the pointer of the drag and what the group would snap to under
it. The graph counts with its counters. -/
structure SameButPointer (e e' : Editor) : Prop where
  config : e'.config = e.config
  graph : e'.graph = e.graph
  viewport : e'.viewport = e.viewport
  objects : e'.objects = e.objects
  held : e'.drag.map Drag.held = e.drag.map Drag.held

/-- A whole drag: what becomes of the group, and the editor afterwards, when the pointer goes from
`start` along a path to `stop`; refused when the drag cannot begin. -/
def dragAlong (e : Editor) (source : DragSource) (start : Point)
    (path : List Point) (stop : Point) : Except Error (Option DropOutcome × Editor) :=
  (e.beginDrag source start).map fun begun => (path.foldl updateDrag begun).endDrag stop

variable {e e' e'' : Editor}

namespace SameButPointer

theorem refl (e : Editor) : e.SameButPointer e := ⟨rfl, rfl, rfl, rfl, rfl⟩

theorem trans (h : e.SameButPointer e') (h' : e'.SameButPointer e'') : e.SameButPointer e'' where
  config := h'.config.trans h.config
  graph := h'.graph.trans h.graph
  viewport := h'.viewport.trans h.viewport
  objects := h'.objects.trans h.objects
  held := h'.held.trans h.held

/-- Only a drag has a pointer: without one nothing can differ. -/
theorem eq_of_drag_eq_none (h : e.SameButPointer e') (hdrag : e.drag = none) : e' = e := by
  have hdrag' : e'.drag = none := by simpa [hdrag] using h.held
  obtain ⟨config, graph, viewport, objects, drag⟩ := e
  obtain ⟨config', graph', viewport', objects', drag'⟩ := e'
  obtain ⟨rfl, rfl, rfl, rfl, -⟩ := h
  obtain rfl : drag = none := hdrag
  obtain rfl : drag' = none := hdrag'
  rfl

/-- A move writes the pointer and the snap target, and reads neither. -/
theorem moveDrag_eq (h : e.SameButPointer e') {d d' : Drag} (hheld : d'.held = d.held)
    (pointer : Point) :
    e'.moveDrag pointer d' = e.moveDrag pointer d := by
  obtain ⟨config, graph, viewport, objects, drag⟩ := e
  obtain ⟨config', graph', viewport', objects', drag'⟩ := e'
  obtain ⟨rfl, rfl, rfl, rfl, -⟩ := h
  obtain ⟨blocks, grabOffset, before, snap⟩ := d
  obtain ⟨blocks', grabOffset', before', snap'⟩ := d'
  obtain ⟨rfl, rfl⟩ := Prod.mk.inj hheld
  rfl

theorem place_eq (h : e.SameButPointer e') (d : Drag) (pointer : Point) :
    e'.place d pointer = e.place d pointer := by
  simp only [place, payloadCorner, h.graph, h.viewport]

theorem discards_eq (h : e.SameButPointer e') (pointer : Point) :
    e'.discards pointer = e.discards pointer := by
  simp only [discards, h.config]

/-- The drop moves the group itself before it looks where it is. -/
theorem endDrag_eq (h : e.SameButPointer e') (stop : Point) : e'.endDrag stop = e.endDrag stop := by
  cases hdrag : e.drag with
  | none => rw [h.eq_of_drag_eq_none hdrag]
  | some d =>
    obtain ⟨d', hdrag', hheld⟩ : ∃ d', e'.drag = some d' ∧ d'.held = d.held := by
      simpa [hdrag, Option.map_eq_some_iff] using h.held
    rw [Editor.endDrag_eq hdrag, Editor.endDrag_eq hdrag', h.discards_eq,
      h.moveDrag_eq hheld, h.place_eq]
    simp only [h.config, h.graph, h.viewport, h.objects]

end SameButPointer

theorem sameButPointer_updateDrag (e : Editor) (pointer : Point) :
    e.SameButPointer (e.updateDrag pointer) where
  config := rfl
  graph := rfl
  viewport := rfl
  objects := rfl
  held := by simp only [updateDrag, Option.map_map]; rfl

theorem sameButPointer_foldl_updateDrag (path : List Point) :
    ∀ e : Editor, e.SameButPointer (path.foldl updateDrag e) := by
  induction path with
  | nil => exact .refl
  | cons pointer path ih =>
    exact fun e => (e.sameButPointer_updateDrag pointer).trans (ih (e.updateDrag pointer))

theorem endDrag_foldl_updateDrag (e : Editor) (path : List Point) (stop : Point) :
    (path.foldl updateDrag e).endDrag stop = e.endDrag stop :=
  (sameButPointer_foldl_updateDrag path e).endDrag_eq stop

/-- The drop does not depend on the way: the group ends as if the pointer had gone from where the
drag began straight to where it ends, and a move changes nothing but the pointer and the snap target
under it. -/
theorem drop_ignores_path (e : Editor) :
    (∀ source start path stop, e.dragAlong source start path stop =
      e.dragAlong source start [] stop) ∧
      ∀ pointer, e.SameButPointer (e.updateDrag pointer) := by
  refine ⟨?_, e.sameButPointer_updateDrag⟩
  intro source start path stop
  unfold dragAlong
  congr 1
  exact funext fun begun => begun.endDrag_foldl_updateDrag path stop

/-- A block leaves its slot by way of a point that is nowhere and snaps where it is let go. -/
example : (((ofConfig .standard).load Document.nestedDocument).dragAlong (.placed 2) ⟨270, 100⟩
    [⟨1 / 0, 0 / 0⟩, ⟨1, 1⟩] ⟨275, 70⟩).toOption.bind (·.1) = some (.snapped (.appendAfter 1)) := by
  decide +kernel

end Editor

end BlockStudio
