import SeaOfNodes.Cli

/-!
The program: it reads the files that its arguments name, answers and exits.
-/
namespace SeaOfNodes.Cli

/-- What is found under a path. -/
def readEntry (path : String) : IO Entry := do
  try
    return .file (← IO.FS.readBinFile path)
  catch
    | .noFileOrDirectory .. => return .missing .notFound
    | _ => return .directory

/-- Colours are forced, forbidden, or used on a terminal. -/
def wantsColour : IO Bool := do
  match ← IO.getEnv "CLICOLOR_FORCE", ← IO.getEnv "NO_COLOR", ← IO.getEnv "CLICOLOR" with
  | some force, noColour, choice =>
    if force != "0" then return true
    else if noColour.isSome || choice == some "0" then return false
    else (← IO.getStdout).isTty
  | none, some _, _ => return false
  | none, none, choice => if choice == some "0" then return false else (← IO.getStdout).isTty

end SeaOfNodes.Cli

def main (arguments : List String) : IO UInt32 := do
  let files := SeaOfNodes.Cli.filesOf arguments
  let entries ← files.mapM SeaOfNodes.Cli.readEntry
  let lookup (path : String) : SeaOfNodes.Cli.Entry :=
    ((files.zip entries).lookup path).getD (.missing .notFound)
  let answer := SeaOfNodes.Cli.run (← SeaOfNodes.Cli.wantsColour) lookup arguments
  (← IO.getStdout).putStr answer.stdout
  (← IO.getStderr).putStr answer.stderr
  return answer.status.toUInt32
