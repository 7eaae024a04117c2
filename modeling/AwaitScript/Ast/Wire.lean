import AwaitScript.Ast.Node
import AwaitScript.Json.Writer

/-!
Syntax trees as JSON. Every node is an object that names its kind first; a floating-point number that
is not finite becomes `null`. A string with a lone surrogate has no JSON. How deep a node nests is no
obstacle here: the limits that writers have for that are set aside.
-/

namespace AwaitScript

namespace Wire

def record (kind : Kind) (fields : List (String × Json)) : Json :=
  .obj (("type", .str kind.name) :: fields)

def identifier (name : String) : Json := record .identifier [("value", .str name)]

def destructure (names : List String) : Json :=
  record .destructure [("identifiers", .arr (names.map identifier))]

def string? (value : Text) : Option Json :=
  value.toString?.map fun s => record .string [("value", .str s)]

def number : Binary64 → Json
  | .finite negative rank => .float (.finite negative rank)
  | _ => .null

end Wire

namespace Node

mutual

def toJson? : Node → Option Json
  | .integer value => some (Wire.record .integer [("value", .int value)])
  | .float value => some (Wire.record .float [("value", Wire.number value)])
  | .boolean value => some (Wire.record .boolean [("value", .bool value)])
  | .string value => Wire.string? value
  | .identifier name => some (Wire.identifier name)
  | .assignment target value => do
    let target ← toJson? target
    let value ← toJson? value
    return Wire.record .assignment [("assignTo", target), ("assignValue", value)]
  | .destructuredAssignment names value => do
    let value ← toJson? value
    return Wire.record .destructuredAssignment
      [("assignTo", Wire.destructure names), ("assignValue", value)]
  | .destructure names => some (Wire.destructure names)
  | .invocation callee arguments => do
    let callee ← toJson? callee
    let arguments ← listToJson? arguments
    return Wire.record .invocation [("invokedValue", callee), ("argsList", .arr arguments)]
  | .function parameters body => do
    let parameters ← parametersToJson? parameters
    let body ← listToJson? body
    return Wire.record .function [("argList", .arr parameters), ("body", .arr body)]
  | .arg expressions => do
    let expressions ← listToJson? expressions
    return Wire.record .arg [("expressions", .arr expressions)]
  | .object entries => do
    let entries ← entriesToJson? entries
    return Wire.record .object [("entries", .arr entries)]
  | .array items => do
    let items ← listToJson? items
    return Wire.record .array [("items", .arr items)]
  | .imports name path => do
    let path ← Wire.string? path
    return Wire.record .imports [("assignTo", Wire.identifier name), ("importFrom", path)]

def listToJson? : List Node → Option (List Json)
  | [] => some []
  | node :: nodes => do
    let j ← toJson? node
    let js ← listToJson? nodes
    return j :: js

def parametersToJson? : List (List Node) → Option (List Json)
  | [] => some []
  | expressions :: parameters => do
    let expressions ← listToJson? expressions
    let js ← parametersToJson? parameters
    return Wire.record .arg [("expressions", .arr expressions)] :: js

def entriesToJson? : List (Node × Node) → Option (List Json)
  | [] => some []
  | (key, value) :: entries => do
    let key ← toJson? key
    let value ← toJson? value
    let js ← entriesToJson? entries
    return .obj [("key", key), ("value", value)] :: js

end

def content? (node : Node) : Option String :=
  node.toJson?.map (Json.render ⟨none, Literal.unicode⟩)

end Node

namespace Program

/-- The program as JSON, on one line or with so many spaces for each level. -/
def dump? (program : Program) (indent : Option Nat) : Option String :=
  (Node.listToJson? program).map fun nodes => Json.render ⟨indent, Literal.unicode⟩ (.arr nodes)

end Program
end AwaitScript
