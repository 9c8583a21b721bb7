import BlockStudio.Document.Decode
import BlockStudio.Document.Encode

/-!
Script files. A script file holds a project (a version and a document) or a document alone; what is
saved is always a project of the present version.
-/
namespace BlockStudio.Document

inductive Error where
  | malformed
  | notAnObject
  | badProject
  | newerProject (version : Nat)
  | badDocument
deriving Repr, DecidableEq

def projectVersion : Nat := 1

def Error.message : Error → String
  | .malformed => "Invalid JSON"
  | .notAnObject => "Script file must contain a JSON object"
  | .badProject => "Invalid project file"
  | .newerProject version =>
    "Project version " ++ Number.digitText version ++ " is newer than supported version "
      ++ Number.digitText projectVersion
  | .badDocument => "Invalid script document"

/-- A document from a text that holds nothing else. -/
def ofText (source : String) : Except Error Document :=
  match (Json.read? source).bind ofJson? with
  | some d => .ok d
  | none => .error .badDocument

/-- The version of a project file fits 32 bits. -/
def version? (j : Json) : Option Nat :=
  j.nat?.filter (· < 0x100000000)

def project? (j : Json) : Option (Nat × Document) := do
  let f ← j.fields? ["version", "document"]
  let version ← f.required 0 version?
  let document ← f.required 1 ofJson?
  some (version, document)

/-- A document from the text of a script file: a project file, or a document alone. -/
def ofSource (source : String) : Except Error Document :=
  match Json.readValue? source with
  | none => .error .malformed
  | some (.object members) =>
    if (Json.member? "document" members).isSome then
      match project? (.object members) with
      | none => .error .badProject
      | some (version, document) =>
        if projectVersion < version then .error (.newerProject version) else .ok document
    else
      match ofJson? (.object members) with
      | none => .error .badDocument
      | some document => .ok document
  | some _ => .error .notAnObject

def toProject (d : Document) : Json :=
  .object [("version", .number (.nat projectVersion)), ("document", d.toJson)]

/-- The text that is saved for a document. -/
def toSource (d : Document) : String := d.toProject.pretty

end BlockStudio.Document
