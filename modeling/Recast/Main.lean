import Recast.Command
import Std.Time.Format

/-!
# The program

Reads the files and the clock, and prints what the run gives.
-/

namespace Recast

namespace Main

def reason : IO.Error → String
  | .noFileOrDirectory _ _ _ => "No such file or directory (os error 2)"
  | e => toString e

def readText (file : Text) : IO (Except Text Text) := do
  try
    return .ok (← IO.FS.readFile (String.ofList file)).toList
  catch e => return .error (reason e).toList

/-- The directory of the settings: the one that the environment names by an absolute path, or else
the usual one below the home directory. -/
def settingsRoot : IO (Option String) := do
  let named := (← IO.getEnv "XDG_CONFIG_HOME").filter (·.startsWith "/")
  let home := (← IO.getEnv "HOME").map (· ++ "/.config")
  return named.or home

/-- The settings file at the usual place, if it is there. -/
def usualSettings : IO (Option Text) := do
  match ← settingsRoot with
  | none => return none
  | some dir =>
    let file := (dir ++ "/sqlshift/config.toml").toList
    return match ← readText file with
      | .ok _ => some file
      | .error e => if e = (reason (.noFileOrDirectory "" 2 "")).toList then none else some file

def now : IO Clock := do
  let time ← Std.Time.DateTime.now
  return ⟨time.toTimestamp.toSecondsSinceUnixEpoch.val, time.offset.second.val⟩

def execute (i : Invocation) : IO UInt32 := do
  let usual ← usualSettings
  let contents ← (i.files usual).mapM fun file => do return (file, ← readText file)
  let files : Files := fun file =>
    match contents.find? fun c => c.1 == file with
    | some c => c.2
    | none => .error "No such file or directory (os error 2)"
  match i.run files usual (← now) with
  | .ok t =>
    IO.print (String.ofList t)
    return 0
  | .error f =>
    IO.eprintln (String.ofList f.message)
    return 1

end Main

end Recast

def main (args : List String) : IO UInt32 := do
  let fallback ← IO.getEnv "SQLSHIFT_CONFIG"
  match Recast.Arguments.read (fallback.map (·.toList)) (args.map (·.toList)) with
  | .ok i => Recast.Main.execute i
  | .error .usage =>
    IO.eprintln "error: invalid arguments; try --help"
    return 2
  | .error .help =>
    IO.print (String.ofList Recast.Report.help)
    return 0
  | .error .version =>
    IO.print (String.ofList Recast.Report.version)
    return 0
