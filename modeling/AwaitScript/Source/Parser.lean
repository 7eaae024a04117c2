import AwaitScript.Source.Token

/-!
The surface of a program, which is what its text says before literals are read and targets of assignments
are checked, and its parser. Optional commas leave no trace.

Parsing goes by one token at a time. The state holds what has been read and what is still open, so a token
is refused exactly when no program continues in this way.

`import` is a keyword at the start of a statement and `from` after an imported name; `true` and `false`
are values where an expression starts. Everywhere else these words are names.
-/

namespace AwaitScript.Surface

mutual

/-- An entry without a value repeats its key, a parameter without one has no default. -/
inductive Expression where
  | name (text : String)
  | int (digits : String)
  | float (whole fraction : String)
  | string (text : String)
  | boolean (value : Bool)
  | object (entries : List (String × Option Expression))
  | array (items : List Expression)
  | function (parameters : List (String × Option Expression)) (body : List Statement)
  | call (callee : Expression) (arguments : List Expression)
  | assignment (target value : Expression)

inductive Statement where
  | imports (name path : String)
  | expression (e : Expression)

end

abbrev Entry := String × Option Expression
abbrev Parameter := String × Option Expression

/-- An open construct that waits for an expression or, for a body, for statements. Lists hold the last
element first. -/
inductive Frame where
  | array (items : List Expression)
  | arguments (callee : Expression) (arguments : List Expression)
  | assignment (target : Expression)
  | entry (entries : List Entry) (key : String)
  | default (parameters : List Parameter) (name : String)
  | body (parameters : List Parameter) (outer : List Statement)

inductive Mode where
  | statement
  | operand
  | operator (e : Expression)
  | key (entries : List Entry)
  | afterKey (entries : List Entry) (key : String)
  | parameter (parameters : List Parameter)
  | afterParameter (parameters : List Parameter) (name : String)
  | arrow (parameters : List Parameter)
  | brace (parameters : List Parameter)
  | importName
  | importFrom (name : String)
  | importPath (name : String)

structure State where
  mode : Mode
  frames : List Frame
  statements : List Statement

namespace State

def start : State := ⟨.statement, [], []⟩

/-- A token is refused after some of its characters could still be read. -/
abbrev Step := Except Nat State

def settle : Expression → List Frame → Expression × List Frame
  | e, .assignment target :: frames => settle (.assignment target e) frames
  | e, frames => (e, frames)

def beginOperand (frames : List Frame) (statements : List Statement) : Token → Step
  | .word text =>
    let e := if text = "true" then .boolean true else if text = "false" then .boolean false
      else .name text
    .ok ⟨.operator e, frames, statements⟩
  | .int digits => .ok ⟨.operator (.int digits), frames, statements⟩
  | .float whole fraction => .ok ⟨.operator (.float whole fraction), frames, statements⟩
  | .string text => .ok ⟨.operator (.string text), frames, statements⟩
  | .openParen => .ok ⟨.parameter [], frames, statements⟩
  | .openBrace => .ok ⟨.key [], frames, statements⟩
  | .openBracket => .ok ⟨.operand, .array [] :: frames, statements⟩
  | _ => .error 0

def beginStatement (frames : List Frame) (statements : List Statement) : Token → Step
  | .closeBrace =>
    match frames with
    | .body parameters outer :: frames =>
      .ok ⟨.operator (.function parameters.reverse statements.reverse), frames, outer⟩
    | _ => .error 0
  | .word text =>
    if text = "import" then .ok ⟨.importName, frames, statements⟩
    else beginOperand frames statements (.word text)
  | token => beginOperand frames statements token

def beginItem (frames : List Frame) (statements : List Statement) (token : Token) : Step :=
  match token, frames with
  | .closeBracket, .array items :: frames =>
    .ok ⟨.operator (.array items.reverse), frames, statements⟩
  | .closeParen, .arguments callee arguments :: frames =>
    .ok ⟨.operator (.call callee arguments.reverse), frames, statements⟩
  | token, frames => beginOperand frames statements token

/-- The expression `e` is complete, and the token belongs to what is around it. -/
def endExpression (e : Expression) (frames : List Frame) (statements : List Statement)
    (token : Token) : Step :=
  match frames, token with
  | .array items :: frames, .comma => .ok ⟨.operand, .array (e :: items) :: frames, statements⟩
  | .array items :: frames, .closeBracket =>
    .ok ⟨.operator (.array (e :: items).reverse), frames, statements⟩
  | .arguments callee arguments :: frames, .comma =>
    .ok ⟨.operand, .arguments callee (e :: arguments) :: frames, statements⟩
  | .arguments callee arguments :: frames, .closeParen =>
    .ok ⟨.operator (.call callee (e :: arguments).reverse), frames, statements⟩
  | .entry entries key :: frames, .comma => .ok ⟨.key ((key, some e) :: entries), frames, statements⟩
  | .entry entries key :: frames, .closeBrace =>
    .ok ⟨.operator (.object ((key, some e) :: entries).reverse), frames, statements⟩
  | .default parameters name :: frames, .comma =>
    .ok ⟨.parameter ((name, some e) :: parameters), frames, statements⟩
  | .default parameters name :: frames, .closeParen =>
    .ok ⟨.arrow ((name, some e) :: parameters), frames, statements⟩
  | [], token => beginStatement [] (.expression e :: statements) token
  | .body parameters outer :: frames, token =>
    beginStatement (.body parameters outer :: frames) (.expression e :: statements) token
  | _, _ => .error 0

/-- After an operand a call or an assignment may follow. Of an arrow, the equals sign can be read. -/
def afterOperand (e : Expression) (frames : List Frame) (statements : List Statement) :
    Token → Step
  | .callParen => .ok ⟨.operand, .arguments e [] :: frames, statements⟩
  | .equals => .ok ⟨.operand, .assignment e :: frames, statements⟩
  | .arrow => .error 1
  | token =>
    let (e, frames) := settle e frames
    endExpression e frames statements token

def step (s : State) (token : Token) : Step :=
  match s.mode, token with
  | .statement, token => beginStatement s.frames s.statements token
  | .operand, token => beginItem s.frames s.statements token
  | .operator e, token => afterOperand e s.frames s.statements token
  | .key entries, .word key => .ok { s with mode := .afterKey entries key }
  | .key entries, .closeBrace => .ok { s with mode := .operator (.object entries.reverse) }
  | .afterKey entries key, .colon =>
    .ok { s with mode := .operand, frames := .entry entries key :: s.frames }
  | .afterKey entries key, .comma => .ok { s with mode := .key ((key, none) :: entries) }
  | .afterKey entries key, .closeBrace =>
    .ok { s with mode := .operator (.object ((key, none) :: entries).reverse) }
  | .parameter parameters, .word name => .ok { s with mode := .afterParameter parameters name }
  | .parameter parameters, .closeParen => .ok { s with mode := .arrow parameters }
  | .afterParameter parameters name, .equals =>
    .ok { s with mode := .operand, frames := .default parameters name :: s.frames }
  | .afterParameter parameters name, .comma =>
    .ok { s with mode := .parameter ((name, none) :: parameters) }
  | .afterParameter parameters name, .closeParen =>
    .ok { s with mode := .arrow ((name, none) :: parameters) }
  | .afterParameter _ _, .arrow => .error 1
  | .arrow parameters, .arrow => .ok { s with mode := .brace parameters }
  | .brace parameters, .openBrace =>
    .ok ⟨.statement, .body parameters s.statements :: s.frames, []⟩
  | .importName, .word name => .ok { s with mode := .importFrom name }
  | .importFrom name, .word text =>
    if text = "from" then .ok { s with mode := .importPath name }
    else if "from".toList.isPrefixOf text.toList then .error 4 else .error 0
  | .importPath name, .string path =>
    .ok { s with mode := .statement, statements := .imports name path :: s.statements }
  | _, _ => .error 0

def finish? (s : State) : Option (List Statement) :=
  match s.mode with
  | .statement => if s.frames.isEmpty then some s.statements.reverse else none
  | .operator e =>
    let (e, frames) := settle e s.frames
    if frames.isEmpty then some (.expression e :: s.statements).reverse else none
  | _ => none

end State

/-- Where a list of tokens stops being the start of a program: at a token, some of whose characters may
still be read, or at the end. -/
inductive Fault where
  | token (index taken : Nat)
  | ending
deriving DecidableEq, Repr

def run (s : State) (index : Nat) : List Token → Except Fault (List Statement)
  | [] =>
    match s.finish? with
    | some statements => .ok statements
    | none => .error .ending
  | token :: tokens =>
    match s.step token with
    | .ok s => run s (index + 1) tokens
    | .error taken => .error (.token index taken)

def parse (tokens : List Token) : Except Fault (List Statement) := run .start 0 tokens

end AwaitScript.Surface
