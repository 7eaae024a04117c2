import AwaitScript.Ast.Node
import AwaitScript.Emission.Splice

/-!
Lowering of programs: every function becomes asynchronous and every call waits for its result. Six
kinds of nodes have a form in the target; the first node of another kind is the reason for refusing a
program. Statements that share a body are all blocks as soon as one of them is.
-/

namespace AwaitScript

inductive LowerError where
  | unsupported (node : Node)
  | splice (e : Emission.SpliceError)

namespace Lowering

abbrev Lowered (α : Type) := Except LowerError α

def concat (fragments : List Emission) : Lowered Emission :=
  (Emission.concat fragments).mapError .splice

def join (fragments : List Emission) : Lowered Emission :=
  (Emission.join ", " fragments).mapError .splice

def siblings (fragments : List Emission) : List Emission :=
  if fragments.any Emission.isGroup then
    fragments.map fun fragment => if fragment.isGroup then fragment else .group [fragment]
  else fragments

/-- A function literal that is called at once needs parentheses. -/
def parenthesize (callee : Node) (fragment : Emission) : Lowered Emission :=
  match callee with
  | .function _ _ => concat [.line "(", fragment, .line ")"]
  | _ => .ok fragment

/-- A function with the given lines of its head; an empty body is closed on the same line. -/
def functionOf (head : Emission) (body : List Emission) : Lowered Emission :=
  if body.isEmpty then concat [head, .line "\x7d"]
  else
    let lines := match head with
      | .line text => [.line text]
      | .group children => children
    .ok (.group (lines ++ [.group (siblings body), .line "\x7d"]))

def functionHead (parameters : List Emission) : Lowered Emission := do
  let list ← join parameters
  concat [.line "async (", list, .line ") => \x7b"]

mutual

def lower : Node → Lowered Emission
  | .integer value => .ok (.line (String.ofList (Json.writeInt value)))
  | .boolean value => .ok (.line (if value then "true" else "false"))
  | .identifier name => .ok (.line name)
  | .assignment target value => do
    let target ← lower target
    let value ← lower value
    concat [.line "const ", target, .line " = ", value]
  | .invocation callee arguments => do
    let head ← lower callee
    let head ← parenthesize callee head
    let arguments ← lowerList arguments
    let arguments ← join arguments
    concat [.line "(await ", head, .line "(", arguments, .line "))"]
  | .function parameters body => do
    let parameters ← lowerParameters parameters
    let head ← functionHead parameters
    let body ← lowerList body
    functionOf head body
  | node => .error (.unsupported node)

def lowerList : List Node → Lowered (List Emission)
  | [] => .ok []
  | node :: nodes => do
    let fragment ← lower node
    let fragments ← lowerList nodes
    return fragment :: fragments

/-- The expressions of one parameter; a default is given without declaring a name. -/
def lowerExpressions : List Node → Lowered (List Emission)
  | [] => .ok []
  | .assignment target value :: nodes => do
    let target ← lower target
    let value ← lower value
    let fragment ← concat [target, .line " = ", value]
    let fragments ← lowerExpressions nodes
    return fragment :: fragments
  | node :: nodes => do
    let fragment ← lower node
    let fragments ← lowerExpressions nodes
    return fragment :: fragments

def lowerParameters : List (List Node) → Lowered (List Emission)
  | [] => .ok []
  | expressions :: parameters => do
    let fragments ← lowerExpressions expressions
    let fragment ← concat fragments
    let fragments ← lowerParameters parameters
    return fragment :: fragments

end

end Lowering

namespace Program

def lower (program : Program) : Lowering.Lowered Emission :=
  (Lowering.lowerList program).map fun fragments => .group (Lowering.siblings fragments)

end Program
end AwaitScript
