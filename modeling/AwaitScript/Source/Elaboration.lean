import AwaitScript.Ast.Node
import AwaitScript.Source.Parser
import AwaitScript.Text.Digit
import AwaitScript.Text.Literal

/-!
From the surface of a program to its syntax tree: literals are read, and the target of an assignment
must be a name or a pattern of names. The parts of a construct are taken from left to right before the
construct itself, and the first fault is the one reported.
-/

namespace AwaitScript.Surface

inductive Defect where
  | literal (text : String) (fault : Literal.Fault)
  | longInteger
  | target (kind : Kind)
deriving DecidableEq, Repr

/-- The most digits of an integer, zeros in front included. -/
def integerLimit : Nat := 4300

def readInteger (digits : List Char) : Except Defect Node :=
  if integerLimit < digits.length then .error .longInteger
  else .ok (.integer (DecimalDigit.number digits))

def readFloat (whole fraction : List Char) : Node :=
  .float (.ofDecimal false (DecimalDigit.number (whole ++ fraction)) (-fraction.length))

def readText (text : String) : Except Defect Text :=
  match Literal.read text.toList with
  | .ok value => .ok value
  | .error fault => .error (.literal text fault)

def itemName? : Node → Option String
  | .identifier name => some name
  | _ => none

def entryName? : Node × Node → Option String
  | (.identifier key, .identifier value) => if key = value then some key else none
  | _ => none

def pattern? : Node → Option (List String)
  | .array items => items.mapM itemName?
  | .object entries => entries.mapM entryName?
  | _ => none

def assign (target value : Node) : Except Defect Node :=
  match target with
  | .identifier _ => .ok (.assignment target value)
  | _ =>
    match pattern? target with
    | some names => .ok (.destructuredAssignment names value)
    | none => .error (.target target.kind)

mutual

def Expression.elaborate : Expression → Except Defect Node
  | .name text => .ok (.identifier text)
  | .int digits => readInteger digits.toList
  | .float whole fraction => .ok (readFloat whole.toList fraction.toList)
  | .string text => (readText text).map .string
  | .boolean value => .ok (.boolean value)
  | .object entries => (elaborateEntries entries).map .object
  | .array items => (elaborateItems items).map .array
  | .function parameters body => do
    let parameters ← elaborateParameters parameters
    let body ← elaborateStatements body
    return .function parameters body
  | .call callee arguments => do
    let callee ← callee.elaborate
    let arguments ← elaborateItems arguments
    return .invocation callee arguments
  | .assignment target value => do
    let target ← target.elaborate
    let value ← value.elaborate
    assign target value

def Statement.elaborate : Statement → Except Defect Node
  | .imports name path => (readText path).map (.imports name)
  | .expression e => e.elaborate

def elaborateItems : List Expression → Except Defect (List Node)
  | [] => .ok []
  | e :: es => do
    let node ← e.elaborate
    let nodes ← elaborateItems es
    return node :: nodes

def elaborateEntries : List (String × Option Expression) → Except Defect (List (Node × Node))
  | [] => .ok []
  | (key, none) :: entries => do
    let entries ← elaborateEntries entries
    return (.identifier key, .identifier key) :: entries
  | (key, some e) :: entries => do
    let value ← e.elaborate
    let entries ← elaborateEntries entries
    return (.identifier key, value) :: entries

def elaborateParameters : List (String × Option Expression) → Except Defect (List (List Node))
  | [] => .ok []
  | (name, none) :: parameters => do
    let parameters ← elaborateParameters parameters
    return [.identifier name] :: parameters
  | (name, some e) :: parameters => do
    let value ← e.elaborate
    let parameters ← elaborateParameters parameters
    return [.assignment (.identifier name) value] :: parameters

def elaborateStatements : List Statement → Except Defect (List Node)
  | [] => .ok []
  | s :: ss => do
    let node ← s.elaborate
    let nodes ← elaborateStatements ss
    return node :: nodes

end

end AwaitScript.Surface
