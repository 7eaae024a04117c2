import AwaitScript.Ast.Node
import AwaitScript.Text.Literal
import AwaitScript.Text.Line
import AwaitScript.Text.Quoted

/-!
What is wrong with a source text, and the words for it.
-/

namespace AwaitScript

/-- A message about a place in a source text. Line zero stands for no place. -/
structure Diagnostic where
  summary : String
  line : Int := 0
  column : Int := 0
deriving DecidableEq, Repr

namespace Diagnostic

def message (d : Diagnostic) : String :=
  if d.line = 0 then d.summary else s!"{d.summary} (line {d.line}, column {d.column})"

def located (summary : String) (position : Position) : Diagnostic :=
  ⟨summary, position.line, position.column⟩

end Diagnostic

inductive ParseError where
  | unexpectedCharacter (c : Char) (position : Position)
  | unexpectedToken (text : String) (position : Position)
  | unexpectedEnd (position : Position)
  | invalidString (text : String) (fault : Literal.Fault) (position : Position)
  | invalidTarget (kind : Kind)
  | longInteger
deriving DecidableEq, Repr

namespace ParseError

/-- The message for the user, which quotes what stands at a place. An integer with too many digits fails
without one. -/
def diagnosticWith? (standing : Position → String → Text) : ParseError → Option Diagnostic
  | unexpectedCharacter c position =>
    some (.located ("Unexpected character " ++ quoted (standing position c.toString)) position)
  | unexpectedToken text position =>
    some (.located ("Unexpected token " ++ quoted (standing position text)) position)
  | unexpectedEnd position => some (.located "Unexpected end of input" position)
  | invalidString text fault position =>
    some (.located ("Invalid string literal " ++ quoted (standing position text) ++ ": " ++ fault.message)
      position)
  | invalidTarget kind => some ⟨"Invalid assignment target: " ++ kind.name, 0, 0⟩
  | longInteger => none

def diagnostic? (e : ParseError) : Option Diagnostic := e.diagnosticWith? fun _ text => text

end ParseError
end AwaitScript
