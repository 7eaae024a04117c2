import AwaitScript.Compile.Failure
import AwaitScript.Source.Program

/-!
From source text or a tree to the text of the target: the statements of a program stand in the body of
an entry point that is called at once.
-/

namespace AwaitScript

structure Config where
  entryPoint : String := "main"
  indentUnit : String := "  "
deriving DecidableEq, Repr

def Config.opening (config : Config) : String :=
  "(async function " ++ config.entryPoint ++ " () \x7b"

def Config.closing : String := "\x7d())"

namespace Emission

def wrap (config : Config) (body : Emission) : String :=
  flatten config.indentUnit "" [line config.opening, body, line Config.closing]

/-- With two spaces a level and any name for the entry point, also one that is no string. -/
def wrapNamed (name : Text) (body : Emission) : Text :=
  Text.ofString "(async function " ++ name ++
    Text.ofString (flatten "  " "" [line " () \x7b", body, line Config.closing])

def Loose.wrap (config : Config) (body : Loose) : Except Refusal String :=
  body.toEmission.map (Emission.wrap config)

end Emission

namespace Program

def compile (config : Config) (program : Program) : Except LowerError String :=
  program.lower.map (Emission.wrap config)

def compileNamed (name : Text) (program : Program) : Except LowerError Text :=
  program.lower.map (Emission.wrapNamed name)

def dump (program : Program) (indent : Option Nat) : Except Failure String :=
  match program.dump? indent with
  | some text => .ok text
  | none => .error .unwritable

def dumpEmission (program : Program) : Except LowerError String :=
  program.lower.map Emission.dump

end Program

namespace Source

def program (source : String) : Except Failure Program :=
  (parse source).mapError .ofParseError

def programOf (text : Text) : Except Failure Program :=
  match text.strict with
  | .ok source => program source
  | .error _ =>
    (parseMasked text).mapError fun e => .ofDiagnostic (e.diagnosticWith? (standing text))

def compile (config : Config) (source : String) : Except Failure String := do
  let program ← program source
  (program.compile config).mapError .ofLowerError

end Source
end AwaitScript
