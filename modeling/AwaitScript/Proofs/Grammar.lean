import AwaitScript.Source.Elaboration
import AwaitScript.Source.Token

/-! The grammar of programs: terminals, derivation trees, the terminals that a tree derives, and the
syntax tree that it stands for. A rule with a single place of use is written where it is used. -/
namespace AwaitScript.Grammar

inductive Keyword where
  | imports
  | origin
  | boolean (value : Bool)
deriving DecidableEq

def Keyword.text : Keyword → String
  | imports => "import"
  | origin => "from"
  | boolean true => "true"
  | boolean false => "false"

inductive Terminal where
  | name (text : String)
  | int (digits : String)
  | float (whole fraction : String)
  | string (text : String)
  | openParen
  | callParen
  | closeParen
  | openBrace
  | closeBrace
  | openBracket
  | closeBracket
  | comma
  | colon
  | equals
  | arrow
  | keyword (k : Keyword)
deriving DecidableEq

/- `list item` is `(item ("," item)* ","?)?`, and `more item` is what may follow its first item. -/
inductive Symbol where
  | statements
  | statement
  | expression
  | call
  | atom
  | parameter
  | entry
  | list (item : Symbol)
  | more (item : Symbol)

/-- Derivation trees, with one constructor for each production. -/
inductive Derivation : Symbol → Type where
  | noStatement : Derivation .statements
  | statement (first : Derivation .statement) (rest : Derivation .statements) :
      Derivation .statements
  | imports (name path : String) : Derivation .statement
  | expression (e : Derivation .expression) : Derivation .statement
  | assignment (target : Derivation .call) (value : Derivation .expression) :
      Derivation .expression
  | call (c : Derivation .call) : Derivation .expression
  | atom (a : Derivation .atom) : Derivation .call
  | invocation (callee : Derivation .call) (arguments : Derivation (.list .expression)) :
      Derivation .call
  | function (parameters : Derivation (.list .parameter)) (body : Derivation .statements) :
      Derivation .atom
  | object (entries : Derivation (.list .entry)) : Derivation .atom
  | array (items : Derivation (.list .expression)) : Derivation .atom
  | identifier (text : String) : Derivation .atom
  | string (text : String) : Derivation .atom
  | float (whole fraction : String) : Derivation .atom
  | int (digits : String) : Derivation .atom
  | boolean (value : Bool) : Derivation .atom
  | parameter (name : String) : Derivation .parameter
  | default (name : String) (value : Derivation .expression) : Derivation .parameter
  | pair (key : String) (value : Derivation .expression) : Derivation .entry
  | shorthand (key : String) : Derivation .entry
  | noItem {s : Symbol} : Derivation (.list s)
  | firstItem {s : Symbol} (first : Derivation s) (rest : Derivation (.more s)) : Derivation (.list s)
  | noMore {s : Symbol} : Derivation (.more s)
  | lastComma {s : Symbol} : Derivation (.more s)
  | next {s : Symbol} (item : Derivation s) (rest : Derivation (.more s)) : Derivation (.more s)

namespace Derivation

def yield {s : Symbol} : Derivation s → List Terminal
  | noStatement => []
  | statement first rest => first.yield ++ rest.yield
  | imports name path => [.keyword .imports, .name name, .keyword .origin, .string path]
  | expression e => e.yield
  | assignment target value => target.yield ++ .equals :: value.yield
  | call c => c.yield
  | atom a => a.yield
  | invocation callee arguments => callee.yield ++ .callParen :: arguments.yield ++ [.closeParen]
  | function parameters body =>
    .openParen :: parameters.yield ++ .closeParen :: .arrow :: .openBrace :: body.yield ++
      [.closeBrace]
  | object entries => .openBrace :: entries.yield ++ [.closeBrace]
  | array items => .openBracket :: items.yield ++ [.closeBracket]
  | identifier text => [.name text]
  | string text => [.string text]
  | float whole fraction => [.float whole fraction]
  | int digits => [.int digits]
  | boolean value => [.keyword (.boolean value)]
  | parameter name => [.name name]
  | default name value => .name name :: .equals :: value.yield
  | pair key value => .name key :: .colon :: value.yield
  | shorthand key => [.name key]
  | noItem => []
  | firstItem first rest => first.yield ++ rest.yield
  | noMore => []
  | lastComma => [.comma]
  | next item rest => .comma :: item.yield ++ rest.yield

end Derivation

/-- What the subtree of a symbol builds: a node, or the lists and pairs that a node is made of. -/
@[reducible] def Symbol.Value : Symbol → Type
  | .statements => List Node
  | .statement | .expression | .call | .atom => Node
  | .parameter => List Node
  | .entry => Node × Node
  | .list item | .more item => List item.Value

open Surface in
/-- The syntax tree of a derivation. Every rule acts on what its parts have built, and the parts are
built from left to right; the first defect met is the result. -/
def Derivation.build {s : Symbol} : Derivation s → Except Defect s.Value
  | noStatement | noItem | noMore | lastComma => .ok []
  | statement first rest | firstItem first rest | next first rest => do
    let value ← first.build
    let values ← rest.build
    return value :: values
  | imports name path => (readText path).map (.imports name)
  | expression e => e.build
  | assignment target value => do
    let target ← target.build
    let value ← value.build
    assign target value
  | call c => c.build
  | atom a => a.build
  | invocation callee arguments => do
    let callee ← callee.build
    let arguments ← arguments.build
    return .invocation callee arguments
  | function parameters body => do
    let parameters ← parameters.build
    let body ← body.build
    return .function parameters body
  | object entries => entries.build.map .object
  | array items => items.build.map .array
  | identifier text => .ok (.identifier text)
  | string text => (readText text).map .string
  | float whole fraction => .ok (readFloat whole.toList fraction.toList)
  | int digits => readInteger digits.toList
  | boolean value => .ok (.boolean value)
  | parameter name => .ok [.identifier name]
  | default name value => value.build.map fun value => [.assignment (.identifier name) value]
  | pair key value => value.build.map fun value => (.identifier key, value)
  | shorthand key => .ok (.identifier key, .identifier key)

end AwaitScript.Grammar
