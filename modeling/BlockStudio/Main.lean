import BlockStudio.CommandLine

/-!
The program: reads files and the environment, runs the command line and prints what it gives.
-/
namespace BlockStudio.CommandLine

/-- The error of a file that could not be opened. -/
def fileError (e : IO.Error) : FileError :=
  match e with
  | .permissionDenied .. => .forbidden
  | .inappropriateType _ code _ => if code = 21 then .directory else .notDirectory
  | _ => .missing

def readText (path : String) : IO (Except FileError String) := do
  try
    match String.fromUTF8? (← IO.FS.readBinFile path) with
    | some s => return .ok s
    | none => return .error .notText
  catch e => return .error (fileError e)

/-- The names of the settings that are read from the environment. -/
def settingNames : List String :=
  ["BLOCKPLAY_CONFIG", "BLOCKPLAY_LOOP_CEILING", "BLOCKPLAY_LOOP_YIELD_INTERVAL",
    "BLOCKPLAY_MAX_CALL_DEPTH"]

def readSetting (name : String) : IO (Option (String × String)) := do
  return (← IO.getEnv name).map (name, ·)

/-- The text of a file among those that were read; a file that was not read counts as missing. -/
def lookUp (files : List (String × Except FileError String)) (path : String) :
    Except FileError String :=
  ((files.find? (·.1 == path)).map (·.2)).getD (.error .missing)

/-- Reads what a run needs, the configuration first because it may name the script. -/
def readSurroundings (args : List String) : IO Surroundings := do
  let settings := Table.ofList (← settingNames.filterMapM readSetting)
  let configFile := configPath settings.get?
  let config ← readText configFile
  let path := scriptPath args (loadConfig ⟨settings.get?, lookUp [(configFile, config)]⟩).1
  let files ← path.toList.mapM fun p => return (p, ← readText p)
  return ⟨settings.get?, lookUp ((configFile, config) :: files)⟩

def print (o : Outcome) : IO Unit := do
  o.lines.forM IO.println
  o.errors.forM IO.eprintln
  o.report.forM fun report => IO.println report.pretty

def execute (args : List String) : IO UInt32 := do
  if isHeadless args then
    let outcome := run (← readSurroundings args) (← IO.rand 0 Number.counterMax) args
    print outcome
    return outcome.code.toUInt32
  else
    IO.eprintln (tagged ("there is no window; use " ++ headlessFlag))
    return 2

end BlockStudio.CommandLine

def main (args : List String) : IO UInt32 := BlockStudio.CommandLine.execute args
