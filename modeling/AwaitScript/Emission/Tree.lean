import AwaitScript.Json.Writer

/-!
Emission trees and the text they stand for. A group that starts with a line is a block and is indented
one unit deeper; a group that starts with a group only holds blocks together.
-/

namespace AwaitScript

inductive Emission where
  | line (text : String)
  | group (children : List Emission)
deriving Repr

namespace Emission

def isGroup : Emission → Bool
  | line _ => false
  | group _ => true

def nested (unit indentation : String) (children : List Emission) : String :=
  match children with
  | group _ :: _ => indentation
  | _ => indentation ++ unit

mutual

/-- The text of one tree. An empty line is not indented, and a group without text leaves no trace. -/
def piece? (unit indentation : String) : Emission → Option String
  | line text => some (if text = "" then "" else indentation ++ text)
  | group children =>
    let text := "\n".intercalate (pieces unit (nested unit indentation children) children)
    if text = "" then none else some text

def pieces (unit indentation : String) : List Emission → List String
  | [] => []
  | child :: children =>
    match piece? unit indentation child with
    | some text => text :: pieces unit indentation children
    | none => pieces unit indentation children

end

def flatten (unit indentation : String) (children : List Emission) : String :=
  "\n".intercalate (pieces unit indentation children)

mutual

def toJson : Emission → Json
  | line text => .str text
  | group children => .arr (listToJson children)

def listToJson : List Emission → List Json
  | [] => []
  | child :: children => toJson child :: listToJson children

end

def dump (e : Emission) : String := Json.render ⟨some 2, Literal.ascii⟩ e.toJson

end Emission
end AwaitScript
