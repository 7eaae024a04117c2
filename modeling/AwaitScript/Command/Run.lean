import AwaitScript.Command.Directory
import AwaitScript.Command.Options
import AwaitScript.Compile.Statistics
import AwaitScript.Text.Utf8

/-!
One run of the command as a function of the working directory, standard input, a clock and the
arguments. What goes wrong with the program text is reported and ends the run with code one; a wrong
use ends it with code two; anything else aborts it. Output is written only when all went well, but the
file for it is emptied before the output is encoded, which can still fail.
-/

namespace AwaitScript.Command

def usage : String :=
  "\n".intercalate [
    "usage: transpile [-h] [--from-ast] [--ast-only] [--emission-only]",
    "                 [--entry-point ENTRY_POINT] [--output OUTPUT] [--stats]",
    "                 [--verbose]",
    "                 [file]",
    ""]

def help : String :=
  usage ++ "\n".intercalate [
    "",
    "Lower source programs to async JavaScript",
    "",
    "positional arguments:",
    "  file                  Source file to compile (default: stdin)",
    "",
    "options:",
    "  -h, --help            show this help message and exit",
    "  --from-ast            Treat the input as a JSON syntax tree instead of",
    "                        source text",
    "  --ast-only            Only print the syntax tree as JSON",
    "  --emission-only       Only print the emission tree as nested lists",
    "  --entry-point ENTRY_POINT, -e ENTRY_POINT",
    "                        Name of the generated entry point (default: main)",
    "  --output OUTPUT, -o OUTPUT",
    "                        Write the compiled program here instead of stdout",
    "  --stats               Print per-stage timings to stderr",
    "  --verbose, -v         Enable info logging",
    ""]

def loadMessage (issues : Nat) : String :=
  s!"Invalid syntax tree: {issues} validation error" ++ (if issues = 1 then "" else "s") ++
    " for list[tagged-union[IntegerLiteral,FloatLiteral,BooleanLiteral,StringLiteral,Identifier," ++
    "Assignment,DestructuredAssignment,Destructure,Invocation,FunctionDef,Arg,ObjectLiteral," ++
    "ArrayLiteral,Import]]"

/-- The words for a failure that is the user's; other failures abort the run. -/
def failureMessage? : Failure → Option String
  | .source d => some d.message
  | .unsupported _ message => some message
  | .load issues => some (loadMessage issues.length)
  | _ => none

/-- Lines for the error channel: those of the log are shown on request, reports always. -/
inductive Note where
  | info (line : String)
  | report (text : String)
deriving DecidableEq, Repr

def Note.shown? (verbose : Bool) : Note → Option String
  | info line => if verbose then some line else none
  | report text => some text

def channel (verbose : Bool) (notes : List Note) : String :=
  String.join ((notes.filterMap (Note.shown? verbose)).map (· ++ "\n"))

def lineCount (text : Text) : Nat := LineBreak.count text.masked

section
variable [Json.Edition]

def obtain (options : Options) (text : Text) : List Note × Except Failure Program :=
  if options.fromAst then ([], (Program.loadText text).mapError .load)
  else
    let reading := Note.info s!"transpiler.api: Parsing source ({text.length} bytes)"
    match Source.programOf text with
    | .error f => ([reading], .error f)
    | .ok program =>
      ([reading, .info s!"transpiler.parser: Parsed {program.length} top-level statements"],
        .ok program)

/-- The output that was asked for. Source text is encoded before anything else if it is to be measured. -/
def produce (options : Options) (clock : Clock) (text : Text) : List Note × Except Failure Text :=
  match text.strict, options.stats with
  | .error stray, true => ([], .error (.encoding stray))
  | _, _ =>
    match obtain options text with
    | (notes, .error f) => (notes, .error f)
    | (notes, .ok program) =>
      let lowering :=
        Note.info s!"transpiler.lowering: Lowering program with {program.length} top-level statements"
      if options.astOnly then (notes, (program.dump (some 2)).map Text.ofString)
      else if options.emissionOnly then
        (notes ++ [lowering], (program.dumpEmission.mapError .ofLowerError).map Text.ofString)
      else if options.stats then
        match Source.measured clock text (·.compileNamed options.entryPoint) lineCount with
        | .ok (output, statistics) => (notes ++ [lowering, .report statistics.report], .ok output)
        | .error f => (notes ++ [lowering], .error f)
      else (notes ++ [lowering], (program.compileNamed options.entryPoint).mapError .ofLowerError)

end

inductive Abort where
  | path (e : PathError)
  | decoding (fault : Utf8.Fault)
  | encoding (stray : Text.Stray)
  | failure (f : Failure)
deriving Repr

structure World where
  directory : Directory
  stdout : Text := []
  stderr : String := ""

/-- Whether the standard streams take bytes that are not UTF-8, each as a lone surrogate, or refuse them. -/
class Locale where
  lenient : Bool

instance Locale.posix : Locale := ⟨true⟩

/-- The surrogates U+DC80 to U+DCFF can stand for bytes. -/
def Locale.keeps [Locale] (index : Fin 0x800) : Bool := lenient && 0x480 ≤ index && index < 0x500

/-- A run in progress. What has been done stays done when the run is aborted. -/
abbrev Session := ExceptT Abort (StateM World)

namespace Session

def note (verbose : Bool) (notes : List Note) : Session Unit :=
  modify fun w => { w with stderr := w.stderr ++ channel verbose notes }

def print [Locale] (text : Text) : Session Unit :=
  match text.checkFrom Locale.keeps 0 with
  | .ok () => modify fun w => { w with stdout := w.stdout ++ text }
  | .error stray => throw (.encoding stray)

def store (path : Text) (bytes : Bytes) : Session Unit := do
  match (← get).directory.write path bytes with
  | .ok directory => modify fun w => { w with directory }
  | .error e => throw (.path e)

/-- Writes a text to a file, which is emptied before the text is encoded. -/
def save (path text : Text) : Session Unit := do
  store path []
  match text.strict with
  | .ok s => store path (Utf8.encode s.toList)
  | .error stray => throw (.encoding stray)

end Session

/-- A path that is empty counts as none. -/
def given? (path : Option Text) : Option Text := path.filter (· ≠ [])

def decoded (bytes : Bytes) : Except Utf8.Fault Text :=
  (Utf8.decode bytes).map fun text => (LineBreak.normalize text).map .scalar

/-- The text of bytes, of which those that are not UTF-8 stand as lone surrogates. -/
def decodedBytewise (bytes : Bytes) : Text :=
  match decoded bytes with
  | .ok text => text
  | .error fault =>
    (decoded (bytes.take fault.start)).toOption.getD [] ++
      match h : bytes.drop fault.start with
      | [] => []
      | byte :: rest =>
        .surrogate ⟨0x400 + byte.toNat, by have := byte.toNat_lt; omega⟩ :: decodedBytewise rest
termination_by bytes.length
decreasing_by
  have hlength := congrArg List.length h
  simp only [List.length_drop, List.length_cons] at hlength
  omega

section
variable [Locale]

def received (stdin : Bytes) : Except Utf8.Fault Text :=
  if Locale.lenient then .ok (decodedBytewise stdin) else decoded stdin

def input (directory : Directory) (stdin : Bytes) (options : Options) : Except Abort Text :=
  match given? options.file with
  | none => (received stdin).mapError .decoding
  | some path => do
    let bytes ← (directory.read path).mapError .path
    (decoded bytes).mapError .decoding

def deliver (options : Options) (output : Text) : Session Unit :=
  match given? options.output with
  | none => Session.print (output ++ Text.ofString "\n")
  | some path => do
    Session.save path (output ++ Text.ofString "\n")
    Session.note options.verbose [.info ("transpiler.cli: Wrote " ++ path.shown)]

end

variable [Json.Edition] [Locale]

def execute (stdin : Bytes) (clock : Clock) (options : Options) : Session Nat := do
  let text ← input (← get).directory stdin options
  let (notes, outcome) := produce options clock text
  Session.note options.verbose notes
  match outcome with
  | .ok output =>
    deliver options output
    return 0
  | .error f =>
    match failureMessage? f with
    | some message =>
      Session.note options.verbose [.report ("error: " ++ message)]
      return 1
    | none => throw (.failure f)

variable [Edition]

def session (stdin : Bytes) (clock : Clock) (argv : List Text) : Session Nat :=
  match parse argv with
  | .error e => do
    Session.note false [.report (usage ++ "transpile: error: " ++ e.message)]
    return 2
  | .ok .help => do
    Session.print help
    return 0
  | .ok (.run options) => execute stdin clock options

def conduct (directory : Directory) (stdin : Bytes) (clock : Clock) (argv : List Text) :
    Except Abort Nat × World :=
  (session stdin clock argv).run.run { directory }

end AwaitScript.Command
