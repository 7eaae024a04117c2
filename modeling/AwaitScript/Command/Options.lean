import AwaitScript.Text.Digit
import AwaitScript.Text.Quoted

/-!
The arguments of the command line. Long options may be shortened as long as they stay unique, flags of
one letter may be run together, and options and the file name come in any order. After `--` every
argument is a name. Unknown arguments are collected and refused at the end, so that help and faults of
known options come first. An argument is bytes; those that are no UTF-8 come as lone surrogates.
-/

namespace AwaitScript

namespace Command

/-- The rules for arguments come in two editions. The recent one keeps `--` as a value, ends a row of
flags at an equals sign, and collects the letters after a flag that are no options. -/
class Edition where
  recent : Bool

-- the edition in use
instance Edition.older : Edition := ⟨false⟩

inductive Opt where
  | help
  | fromAst
  | astOnly
  | emissionOnly
  | entryPoint
  | output
  | stats
  | verbose
deriving DecidableEq, Repr

namespace Opt

def spellings : List (String × Opt) :=
  [("-h", help), ("--help", help), ("--from-ast", fromAst), ("--ast-only", astOnly),
    ("--emission-only", emissionOnly), ("--entry-point", entryPoint), ("-e", entryPoint),
    ("--output", output), ("-o", output), ("--stats", stats), ("--verbose", verbose),
    ("-v", verbose)]

def ofSpelling? (text : Text) : Option Opt :=
  (spellings.find? fun (spelling, _) => Text.ofString spelling = text).map Prod.snd

def ofLetter? (p : CodePoint) : Option Opt := ofSpelling? [.scalar '-', p]

def title (o : Opt) : String :=
  "/".intercalate ((spellings.filter fun (_, other) => other = o).map Prod.fst)

def takesValue (o : Opt) : Bool := o = entryPoint || o = output

end Opt

inductive UsageError where
  | ambiguous (argument : Text) (matching : List String)
  | expectedValue (o : Opt)
  | ignoredValue (o : Opt) (value : Text)
  | unrecognized (arguments : List Text)
  | statsWithTree
deriving DecidableEq, Repr

def UsageError.message : UsageError → String
  | ambiguous argument matching =>
    "ambiguous option: " ++ argument.shown ++ " could match " ++ ", ".intercalate matching
  | expectedValue o => "argument " ++ o.title ++ ": expected one argument"
  | ignoredValue o value => "argument " ++ o.title ++ ": ignored explicit argument " ++ quoted value
  | unrecognized arguments =>
    "unrecognized arguments: " ++ " ".intercalate (arguments.map Text.shown)
  | statsWithTree =>
    "--stats only applies to compiling source text; drop --from-ast, --ast-only and --emission-only"

/-- What an argument is by its look alone. A value may be attached to an option, and `bundled` says
that more letters may follow in its place. -/
inductive Argument where
  | name (text : Text)
  | separator
  | option (o : Opt) (bundled : Bool) (attached : Option Text)
  | unknown (text : Text)
deriving DecidableEq, Repr

def isDigit : CodePoint → Bool
  | .scalar c => DecimalDigit.isDigit c
  | .surrogate _ => false

/-- Digits with at most one point among or before them. A line feed at the end is overlooked. -/
def isNumeral (text : Text) : Bool :=
  let text := if text.getLast? = some (.scalar '\n') then text.dropLast else text
  let whole := text.takeWhile isDigit
  match text.dropWhile isDigit with
  | [] => whole ≠ []
  | .scalar '.' :: fraction => fraction ≠ [] && fraction.all isDigit
  | _ => false

def splitEquals (text : Text) : Text × Option Text :=
  match text.dropWhile (· ≠ .scalar '=') with
  | _ :: value => (text.takeWhile (· ≠ .scalar '='), some value)
  | [] => (text, none)

def classifyUnknown (text : Text) : Argument :=
  if isNumeral (text.drop 1) || text.contains (.scalar ' ') then .name text else .unknown text

def classifyLong (text : Text) : Except UsageError Argument :=
  let (stem, value?) := splitEquals text
  match Opt.spellings.filter fun (spelling, _) => stem.isPrefixOf (Text.ofString spelling) with
  | [] => .ok (classifyUnknown text)
  | [(_, o)] => .ok (.option o false value?)
  | several => .error (.ambiguous text (several.map Prod.fst))

section
variable [Edition]

def classify (text : Text) : Except UsageError Argument :=
  match text with
  | .scalar '-' :: p :: rest =>
    match Opt.ofSpelling? text with
    | some o => .ok (.option o (p ≠ .scalar '-') none)
    | none =>
      let (stem, value?) := splitEquals text
      match Opt.ofSpelling? stem, value? with
      | some o, some value => .ok (.option o (p ≠ .scalar '-' && !Edition.recent) (some value))
      | _, _ =>
        if p = .scalar '-' then classifyLong text
        else
          match Opt.ofLetter? p with
          | some o => .ok (.option o true (some rest))
          | none => .ok (classifyUnknown text)
  | _ => .ok (.name text)

def classifyAll : List Text → Except UsageError (List Argument)
  | [] => .ok []
  | text :: texts =>
    if text = "--" then .ok (.separator :: texts.map .name)
    else do
      let argument ← classify text
      let arguments ← classifyAll texts
      return argument :: arguments

end

inductive Action where
  | flag (o : Opt)
  | value (o : Opt) (text : Text)
deriving DecidableEq, Repr

/-- What is left of an argument after its options: nothing, an option that needs the next argument as its
value, or letters that nobody asked for. -/
inductive Remainder where
  | nothing
  | pending (o : Opt)
  | extra (text : Text)
deriving DecidableEq, Repr

structure Bundle where
  actions : List Action
  remainder : Remainder
deriving DecidableEq, Repr

def Bundle.cons (o : Opt) (b : Bundle) : Bundle := ⟨.flag o :: b.actions, b.remainder⟩

def bundleOf (o : Opt) : Bundle :=
  if o.takesValue then ⟨[], .pending o⟩ else ⟨[.flag o], .nothing⟩

def attach (o : Opt) (value : Text) : Except UsageError Bundle :=
  if o.takesValue then .ok ⟨[.value o value], .nothing⟩ else .error (.ignoredValue o value)

section
variable [Edition]

/-- Letters run together: flags, the last of which may be an option with the rest as its value. -/
def unbundle (o : Opt) : Text → Except UsageError Bundle
  | [] => attach o []
  | p :: rest =>
    if o.takesValue then attach o (p :: rest)
    else
      match Opt.ofLetter? p with
      | none =>
        if Edition.recent && p ≠ .scalar '-' then .ok ⟨[.flag o], .extra (.scalar '-' :: p :: rest)⟩
        else .error (.ignoredValue o (p :: rest))
      | some next =>
        if rest = [] then .ok ((bundleOf next).cons o)
        else if Edition.recent && rest.head? = some (.scalar '=') then
          (attach next rest.tail).map (.cons o)
        else (unbundle next rest).map (.cons o)

def bundle (o : Opt) (bundled : Bool) : Option Text → Except UsageError Bundle
  | none => .ok (bundleOf o)
  | some value => if bundled then unbundle o value else attach o value

end

end Command

structure Options where
  file : Option Text := none
  fromAst : Bool := false
  astOnly : Bool := false
  emissionOnly : Bool := false
  entryPoint : Text := "main"
  output : Option Text := none
  stats : Bool := false
  verbose : Bool := false
deriving DecidableEq, Repr

namespace Command

inductive Request where
  | help
  | run (options : Options)
deriving DecidableEq, Repr

/-- How far the arguments have been read: whether the file name has been settled, and what nobody asked
for, the last first. -/
structure Progress where
  options : Options := {}
  settled : Bool := false
  extras : List Text := []

def readNames (p : Progress) : List Argument → Progress
  | [] => p
  | .name text :: rest =>
    if p.settled then readNames { p with extras := text :: p.extras } rest
    else readNames { p with options.file := some text, settled := true } rest
  | _ :: rest => readNames p rest

variable [Edition]

/-- The value of an option. The older edition drops a value that is just `--`, which leaves an empty
list. -/
def kept? (text : Text) : Option Text := if text = "--" && !Edition.recent then none else some text

def Action.apply (options : Options) : Action → Options
  | .flag .fromAst => { options with fromAst := true }
  | .flag .astOnly => { options with astOnly := true }
  | .flag .emissionOnly => { options with emissionOnly := true }
  | .flag .stats => { options with stats := true }
  | .flag .verbose => { options with verbose := true }
  | .value .entryPoint text => { options with entryPoint := (kept? text).getD "[]" }
  | .value .output text => { options with output := kept? text }
  | _ => options

def applyAll (p : Progress) : List Action → Option Progress
  | [] => some p
  | .flag .help :: _ => none
  | action :: actions => applyAll { p with options := action.apply p.options } actions

def readArguments (p : Progress) : List Argument → Except UsageError Request
  | [] =>
    if p.extras = [] then .ok (.run p.options) else .error (.unrecognized p.extras.reverse)
  | .name text :: .separator :: rest =>
    if p.settled then
      finish (readNames { p with extras := "--" :: text :: p.extras } rest)
    else finish (readNames { p with options.file := some text, settled := true } rest)
  | .name text :: rest =>
    if p.settled then readArguments { p with extras := text :: p.extras } rest
    else readArguments { p with options.file := some text, settled := true } rest
  | .separator :: rest =>
    if p.settled then finish (readNames { p with extras := "--" :: p.extras } rest)
    else finish (readNames p rest)
  | .unknown text :: rest => readArguments { p with extras := text :: p.extras } rest
  | .option o bundled attached :: rest =>
    match bundle o bundled attached with
    | .error e => .error e
    | .ok ⟨actions, .nothing⟩ =>
      match applyAll p actions with
      | none => .ok .help
      | some p => readArguments p rest
    | .ok ⟨actions, .extra text⟩ =>
      match applyAll p actions with
      | none => .ok .help
      | some p => readArguments { p with extras := text :: p.extras } rest
    | .ok ⟨actions, .pending next⟩ =>
      match rest with
      | .name text :: rest =>
        match applyAll p (actions ++ [.value next text]) with
        | none => .ok .help
        | some p => readArguments p rest
      | _ => .error (.expectedValue next)
where
  finish (p : Progress) : Except UsageError Request :=
    if p.extras = [] then .ok (.run p.options) else .error (.unrecognized p.extras.reverse)

def parse (argv : List Text) : Except UsageError Request := do
  let arguments ← classifyAll argv
  match ← readArguments {} arguments with
  | .help => return .help
  | .run options =>
    if options.stats && (options.fromAst || options.astOnly || options.emissionOnly) then
      throw .statsWithTree
    return .run options

end Command
end AwaitScript
