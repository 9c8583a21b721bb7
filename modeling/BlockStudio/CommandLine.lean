import BlockStudio.Document.Project
import BlockStudio.Report

/-!
The command line. It runs a script without a window for a number of frames and prints a report.
Files and settings of the environment are given as functions, so that a run is a value: what is
printed, and the exit code.
-/
namespace BlockStudio.CommandLine

inductive FileError where
  | missing
  | directory
  | notDirectory
  | forbidden
  | notText
deriving Repr, DecidableEq

def FileError.message : FileError → String
  | .missing => "No such file or directory (os error 2)"
  | .directory => "Is a directory (os error 21)"
  | .notDirectory => "Not a directory (os error 20)"
  | .forbidden => "Permission denied (os error 13)"
  | .notText => "stream did not contain valid UTF-8"

/-- What a run reads from outside. -/
structure Surroundings where
  environment : String → Option String
  readFile : String → Except FileError String

structure Outcome where
  code : UInt8
  lines : List String
  report : Option Json
  errors : List String

inductive Error where
  | noScript
  | unreadable (path : String) (e : FileError)
  | document (e : Document.Error)
deriving Repr, DecidableEq

def Error.message : Error → String
  | .noScript => "--headless needs --script <file>"
  | .unreadable path e => "Failed to read " ++ path ++ ": " ++ e.message
  | .document e => e.message

def tagged (s : String) : String := "[Blockplay] " ++ s

/-- The argument after the first occurrence of a flag. -/
def argument? (flag : String) : List String → Option String
  | [] => none
  | a :: rest => if a = flag then rest.head? else argument? flag rest

def headlessFlag : String := "--headless"

def configPath (environment : String → Option String) : String :=
  ((environment "BLOCKPLAY_CONFIG").filter (!·.isEmpty)).getD "blockplay.json"

/-- The start-up configuration, with the lines and the errors that reading it prints. A file that is
missing is passed over in silence. -/
def loadConfig (around : Surroundings) : Config × List String × List String :=
  let path := configPath around.environment
  match around.readFile path with
  | .error _ => (.standard, [], [])
  | .ok source =>
    match Config.ofText? source with
    | some c => (c, [tagged ("Loaded startup config from " ++ path)], [])
    | none => (.standard, [], [tagged ("Failed to parse " ++ path)])

/-- The path of the script: the argument, and else what the configuration names. -/
def scriptPath (args : List String) (c : Config) : Option String :=
  (argument? "--script" args).or c.script

/-- The script to run, and its path. -/
def loadScript (around : Surroundings) (path : Option String) : Except Error (String × Document) :=
  match path with
  | none => .error .noScript
  | some path =>
    match around.readFile path with
    | .error e => .error (.unreadable path e)
    | .ok source =>
      match Document.ofSource source with
      | .error e => .error (.document e)
      | .ok d => .ok (path, d)

def standardFrames : Nat := 600

def startLine (path : String) (d : Document) (frames : Nat) : String :=
  tagged ("Starting in HEADLESS mode: " ++ path ++ " (" ++
    Number.digitText d.blockCount ++ " blocks, " ++ Number.digitText frames ++ " frames)")

/-- Whether the arguments ask for a run without a window. -/
def isHeadless (args : List String) : Bool := args.contains headlessFlag

/-- A run without a window. The seed `entropy` is used when the arguments give none. -/
def run (around : Surroundings) (entropy : Nat) (args : List String) : Outcome :=
  let (config, lines, errors) := loadConfig around
  match loadScript around (scriptPath args config) with
  | .error e => ⟨2, lines, none, errors ++ [tagged e.message]⟩
  | .ok (path, d) =>
    let frames := ((argument? "--frames" args).bind Number.readCounter?).getD standardFrames
    let seed := ((argument? "--seed" args).bind Number.readCounter?).getD entropy
    let engine := Script.Engine.ofSeed (.ofEnvironment around.environment) seed
    let r := (Run.start engine (config.scene.setUp .empty) d).frames (frames + 1)
    ⟨0, lines ++ [startLine path d frames], some r.report, errors⟩

end BlockStudio.CommandLine
