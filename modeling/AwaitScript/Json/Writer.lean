import AwaitScript.Binary64.Shortest
import AwaitScript.Json.Value
import AwaitScript.Text.Literal

/-!
The text of a JSON document: compact, or one item a line with a fixed number of spaces for each level.
A number that is not finite is written as `null`.
-/

namespace AwaitScript.Json

/-- How a document is laid out: without blanks, or with so many spaces for each level. -/
structure Layout where
  indent : Option Nat
  plain : Literal.Style

namespace Layout

def newline (layout : Layout) (depth : Nat) : List Char :=
  match layout.indent with
  | none => []
  | some n => '\n' :: List.replicate (n * depth) ' '

def colon (layout : Layout) : List Char := if layout.indent.isSome then [':', ' '] else [':']

end Layout

def writeInt (i : Int) : List Char :=
  if i < 0 then '-' :: Nat.toDigits 10 i.natAbs else Nat.toDigits 10 i.natAbs

mutual

def write (layout : Layout) (depth : Nat) : Json → List Char
  | .null => "null".toList
  | .bool true => "true".toList
  | .bool false => "false".toList
  | .int i => writeInt i
  | .float x => x.write?.getD "null".toList
  | .str s => Literal.write layout.plain s.toList
  | .arr [] => ['[', ']']
  | .arr (item :: items) =>
    '[' :: layout.newline (depth + 1) ++ write layout (depth + 1) item ++
      writeItems layout (depth + 1) items ++ layout.newline depth ++ [']']
  | .obj [] => ['\x7b', '\x7d']
  | .obj ((key, value) :: members) =>
    '\x7b' :: layout.newline (depth + 1) ++ Literal.write layout.plain key.toList ++ layout.colon ++
      write layout (depth + 1) value ++ writeMembers layout (depth + 1) members ++
      layout.newline depth ++ ['\x7d']

def writeItems (layout : Layout) (depth : Nat) : List Json → List Char
  | [] => []
  | item :: items =>
    ',' :: layout.newline depth ++ write layout depth item ++ writeItems layout depth items

def writeMembers (layout : Layout) (depth : Nat) : List (String × Json) → List Char
  | [] => []
  | (key, value) :: members =>
    ',' :: layout.newline depth ++ Literal.write layout.plain key.toList ++ layout.colon ++
      write layout depth value ++ writeMembers layout depth members

end

def render (layout : Layout) (j : Json) : String := String.ofList (write layout 0 j)

end AwaitScript.Json
