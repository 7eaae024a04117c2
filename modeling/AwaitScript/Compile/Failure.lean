import AwaitScript.Ast.Load
import AwaitScript.Ast.Wire
import AwaitScript.Emission.Loose
import AwaitScript.Emission.Lowering
import AwaitScript.Source.Diagnostic

/-!
Why a compilation fails, with the words for it. A string with a lone surrogate cannot be written, so a
message that would have to show it fails as well.
-/

namespace AwaitScript

inductive Failure where
  | source (d : Diagnostic)
  | longInteger
  | unsupported (kind message : String)
  | unwritable
  | load (issues : List Load.Issue)
  | encoding (stray : Text.Stray)
  | assertion (message : String)
deriving Repr

def unsupportedMessage (kind content : String) : String :=
  "Unsupported node kind '" ++ kind ++ "': " ++ content

namespace Failure

def ofDiagnostic : Option Diagnostic → Failure
  | some d => source d
  | none => longInteger

def ofParseError (e : ParseError) : Failure := ofDiagnostic e.diagnostic?

def ofLowerError : LowerError → Failure
  | .unsupported node =>
    match node.content? with
    | some content => unsupported node.kind.name (unsupportedMessage node.kind.name content)
    | none => unwritable
  | .splice e => assertion e.message

def ofRefusal (r : Emission.Refusal) : Failure := assertion r.message

end Failure
end AwaitScript
