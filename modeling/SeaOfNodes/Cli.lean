import SeaOfNodes.Cli.Files
import SeaOfNodes.Compile
import SeaOfNodes.Text.Plain

/-!
The command line. `run` answers a list of arguments, given what is found under each path, so that
nothing here reads or prints.
-/
namespace SeaOfNodes.Cli

structure Options where
  compile : CompileOptions := {}
  dump : Bool := false
  noColor : Bool := false
  verbose : Bool := false

inductive Command where
  | version
  | help
  | compile (options : Options) (files : List String)

/-- What a run prints, and its status. -/
structure Answer where
  status : Nat := 0
  stdout : String := ""
  stderr : String := ""
  deriving DecidableEq, Repr

/-- Two runs, one after the other. The worse status counts. -/
def Answer.append (a b : Answer) : Answer :=
  ⟨max a.status b.status, a.stdout ++ b.stdout, a.stderr ++ b.stderr⟩

instance : Append Answer := ⟨Answer.append⟩

def programName : String := "kelpc"

def version : String := "0.1.0"

def usage (coloured : Bool) : String :=
  mark ["1", "4"] coloured "Usage:" ++ " " ++ mark ["1"] coloured programName ++
    " [OPTIONS] [SOURCE_FILES]..."

def helpText : String :=
  "Kelp Language Sea-of-Nodes Compiler Front End\n\n" ++ usage false ++ "\n\n" ++
  "Options:\n" ++
  "      --no-optimize              Skip the whole-graph passes and print the graph as constructed\n" ++
  "      --no-reorder               Do not move loads and stores along the memory chain\n" ++
  "      --promote-locals           Keep locals whose address is never taken as SSA values\n" ++
  "      --max-rounds <MAX_ROUNDS>  Upper bound on reorder/peephole rounds [default: 8]\n" ++
  "      --dump                     Print the finished graph\n" ++
  "      --no-color\n" ++
  "  -v, --verbose                  Log construction and optimization progress\n" ++
  "  -h, --help                     Print help\n" ++
  "  -V, --version                  Print version\n\n" ++
  "Each file is compiled on its own. The exit status is 1 if any file\n" ++
  "fails to parse or has type errors.\n"

/-! ### Arguments -/

inductive UsageError where
  | unknown (argument : String)
  | invalidRounds (value : String)
  | noFiles
  | noSuchFile (path : String)
  | notAFile (path : String)
  deriving DecidableEq, Repr

def UsageError.message : UsageError → String
  | .unknown argument => "unexpected argument '" ++ argument ++ "' found"
  | .invalidRounds value => "invalid value '" ++ value ++ "' for '--max-rounds <MAX_ROUNDS>'"
  | .noFiles => "Missing source files!"
  | .noSuchFile path => "Source file '" ++ path ++ "' does not exist!"
  | .notAFile path => "Input path '" ++ path ++ "' is not a file!"

def UsageError.answer (coloured : Bool) (e : UsageError) : Answer :=
  { status := 2
    stderr := mark ["1", "31"] coloured "error:" ++ " " ++
      (if coloured then e.message else plainMessage e.message) ++ "\n\n" ++ usage coloured ++
      "\n\nFor more information, try '" ++ mark ["1"] coloured "--help" ++ "'.\n" }

/-- A number of 64 bits in decimal, with or without a `+`. -/
def roundsOf? (text : String) : Option Nat :=
  let digits := match text.toList with
    | '+' :: rest => rest
    | rest => rest
  if digits.isEmpty || !digits.all Char.isDigit then none
  else
    let n := digits.foldl (fun n c => 10 * n + (c.toNat - '0'.toNat)) 0
    if n < pow2 64 then some n else none

namespace Options

def setRounds (o : Options) (n : Nat) : Options :=
  { o with compile := { o.compile with optimize := { o.compile.optimize with maxRounds := n } } }

/-- The options after a flag that has no value. -/
def setFlag? (o : Options) (flag : String) : Option Options :=
  match flag with
  | "--no-optimize" =>
    some { o with
      compile := { o.compile with optimize := { o.compile.optimize with enabled := false } } }
  | "--no-reorder" =>
    some { o with
      compile := { o.compile with optimize := { o.compile.optimize with reorder := false } } }
  | "--promote-locals" => some { o with compile := { o.compile with promote := true } }
  | "--dump" => some { o with dump := true }
  | "--no-color" => some { o with noColor := true }
  | "--verbose" => some { o with verbose := true }
  | _ => none

end Options

/-- What a group of short flags does: it goes on with other options, or asks for something else. -/
def readShort (whole : String) (o : Options) : List Char → Except UsageError (Options ⊕ Command)
  | [] => .ok (.inl o)
  | 'v' :: flags => readShort whole { o with verbose := true } flags
  | 'V' :: _ => .ok (.inr .version)
  | 'h' :: _ => .ok (.inr .help)
  | _ => .error (.unknown whole)

def readRounds (o : Options) (value : String) : Except UsageError Options :=
  match roundsOf? value with
  | some n => .ok (o.setRounds n)
  | none => .error (.invalidRounds value)

/-- The value of `--max-rounds` if it stands in the same argument. -/
def attachedRounds? (argument : String) : Option String :=
  let start := "--max-rounds=".toList
  if start.isPrefixOf argument.toList then
    some (String.ofList (argument.toList.drop start.length))
  else none

/-- Reads arguments from left to right. Everything behind `--` is a file. -/
def readArguments (o : Options) (files : List String) :
    List String → Except UsageError Command
  | [] => .ok (.compile o files)
  | "--" :: rest => .ok (.compile o (files ++ rest))
  | "--version" :: _ => .ok .version
  | "--help" :: _ => .ok .help
  | "--max-rounds" :: value :: rest => do
    let o ← readRounds o value
    readArguments o files rest
  | argument :: rest => do
    match argument.toList, attachedRounds? argument, o.setFlag? argument with
    | _, some value, _ =>
      let o ← readRounds o value
      readArguments o files rest
    | _, none, some o => readArguments o files rest
    | '-' :: '-' :: _, none, none => .error (.unknown argument)
    | '-' :: flag :: flags, none, none =>
      match ← readShort argument o (flag :: flags) with
      | .inl o => readArguments o files rest
      | .inr command => .ok command
    | _, none, none => readArguments o (files ++ [argument]) rest

/-- The first path that is not one of a file. -/
def checkFiles (lookup : String → Entry) : List String → Except UsageError Unit
  | [] => .ok ()
  | path :: paths =>
    match lookup path with
    | .missing _ => .error (.noSuchFile path)
    | .directory => .error (.notAFile path)
    | .file _ => checkFiles lookup paths

/-! ### Compiling files -/

def load (path : String) (entry : Entry) : Except LoadError Source :=
  match entry with
  | .missing reason => .error ⟨path, reason⟩
  | .directory => .error ⟨path, .isDirectory⟩
  | .file bytes =>
    match String.fromUTF8? bytes with
    | some text => .ok ⟨text, .file path⟩
    | none => .error ⟨path, .notText⟩

def errorLine (coloured : Bool) (message : String) : String :=
  paintBold coloured .red "error:" ++ " " ++ message ++ "\n"

def failure (coloured : Bool) (message : String) : Answer :=
  { status := 1, stderr := errorLine coloured message }

def dumpText (coloured : Bool) (o : Options) (g : Graph) : String :=
  if !o.dump then ""
  else if o.noColor then plainText (g.dump coloured) ++ "\n"
  else g.dump coloured ++ "\n"

def report (coloured : Bool) (o : Options) (source : Source) (c : Compilation) : Answer :=
  { status := if c.hasErrors then 1 else 0
    stdout := dumpText coloured o c.graph
    stderr := String.join (c.diagnostics.map fun d => errorLine coloured (d.render coloured source)) }

def compileSource (coloured : Bool) (o : Options) (source : Source) : Answer :=
  match compile source.text o.compile with
  | .ok c => report coloured o source c
  | .error (.error e) => failure coloured (e.render coloured source)
  | .error (.fault f) => { status := 101, stderr := f.message?.getD "internal fault" ++ "\n" }

def compileFile (coloured : Bool) (o : Options) (path : String) (entry : Entry) : Answer :=
  match load path entry with
  | .ok source => compileSource coloured o source
  | .error e => failure coloured e.message

/-- Compiles files one after the other. A fault ends the run. -/
def compileFiles (coloured : Bool) (o : Options) (lookup : String → Entry) :
    List String → Answer
  | [] => {}
  | path :: paths =>
    let answer := compileFile coloured o path (lookup path)
    if answer.status ≤ 1 then answer ++ compileFiles coloured o lookup paths else answer

def runCommand (coloured : Bool) (lookup : String → Entry) : Command → Answer
  | .version => { stdout := programName ++ " " ++ version ++ "\n" }
  | .help => { stdout := helpText }
  | .compile _ [] => UsageError.noFiles.answer coloured
  | .compile o files =>
    match checkFiles lookup files with
    | .error e => e.answer coloured
    | .ok () => compileFiles (coloured && !o.noColor) o lookup files

def run (coloured : Bool) (lookup : String → Entry) (arguments : List String) : Answer :=
  match readArguments {} [] arguments with
  | .error e => e.answer coloured
  | .ok command => runCommand coloured lookup command

def filesOf (arguments : List String) : List String :=
  match readArguments {} [] arguments with
  | .ok (.compile _ files) => files
  | _ => []

end SeaOfNodes.Cli
