import AwaitScript.Binary64.Basic
import AwaitScript.Text.CodePoint

/-!
Syntax trees. The type admits more than programs can say: any node may stand wherever a node is
expected, so that trees written by other tools can be held as well.
-/

namespace AwaitScript

inductive Kind where
  | integer
  | float
  | boolean
  | string
  | identifier
  | assignment
  | destructuredAssignment
  | destructure
  | invocation
  | function
  | arg
  | object
  | array
  | imports
deriving DecidableEq, Repr

namespace Kind

def name : Kind → String
  | integer => "integer"
  | float => "float"
  | boolean => "boolean"
  | string => "string"
  | identifier => "identifier"
  | assignment => "assignment"
  | destructuredAssignment => "destructured_assignment"
  | destructure => "destructure"
  | invocation => "invocation"
  | function => "function"
  | arg => "arg"
  | object => "object"
  | array => "array"
  | imports => "import"

def all : List Kind :=
  [integer, float, boolean, string, identifier, assignment, destructuredAssignment, destructure,
    invocation, function, arg, object, array, imports]

def ofName? (s : String) : Option Kind := all.find? fun k => k.name = s

end Kind

/-- A parameter of a function is the list of its expressions, an object entry is a key and a value. -/
inductive Node where
  | integer (value : Int)
  | float (value : Binary64)
  | boolean (value : Bool)
  | string (value : Text)
  | identifier (name : String)
  | assignment (target value : Node)
  | destructuredAssignment (names : List String) (value : Node)
  | destructure (names : List String)
  | invocation (callee : Node) (arguments : List Node)
  | function (parameters : List (List Node)) (body : List Node)
  | arg (expressions : List Node)
  | object (entries : List (Node × Node))
  | array (items : List Node)
  | imports (name : String) (path : Text)
deriving Repr

abbrev Program := List Node

namespace Node

def kind : Node → Kind
  | integer _ => .integer
  | float _ => .float
  | boolean _ => .boolean
  | string _ => .string
  | identifier _ => .identifier
  | assignment _ _ => .assignment
  | destructuredAssignment _ _ => .destructuredAssignment
  | destructure _ => .destructure
  | invocation _ _ => .invocation
  | function _ _ => .function
  | arg _ => .arg
  | object _ => .object
  | array _ => .array
  | imports _ _ => .imports

mutual

def same : Node → Node → Bool
  | integer a, integer b => a = b
  | float a, float b => a = b
  | boolean a, boolean b => a = b
  | string a, string b => a = b
  | identifier a, identifier b => a = b
  | assignment t v, assignment t' v' => same t t' && same v v'
  | destructuredAssignment n v, destructuredAssignment n' v' => n = n' && same v v'
  | destructure n, destructure n' => n = n'
  | invocation c as, invocation c' as' => same c c' && sameList as as'
  | function ps b, function ps' b' => sameParameters ps ps' && sameList b b'
  | arg es, arg es' => sameList es es'
  | object es, object es' => sameEntries es es'
  | array is, array is' => sameList is is'
  | imports n p, imports n' p' => n = n' && p = p'
  | _, _ => false

def sameList : List Node → List Node → Bool
  | [], [] => true
  | a :: as, b :: bs => same a b && sameList as bs
  | _, _ => false

def sameParameters : List (List Node) → List (List Node) → Bool
  | [], [] => true
  | a :: as, b :: bs => sameList a b && sameParameters as bs
  | _, _ => false

def sameEntries : List (Node × Node) → List (Node × Node) → Bool
  | [], [] => true
  | (k, v) :: as, (k', v') :: bs => same k k' && same v v' && sameEntries as bs
  | _, _ => false

end

instance : BEq Node := ⟨same⟩

end Node
end AwaitScript
