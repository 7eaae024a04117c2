import AwaitScript.Ast.Node
import AwaitScript.Ast.Scalar

/-!
Reading syntax trees from JSON. A document that is not a tree gives every issue with its place, depth
first and in the order of the fields. A field has a wire name and may have a second one that is used
when the first is absent; keys of neither kind are ignored.
-/

namespace AwaitScript

namespace Load

inductive Cause where
  | stringUnicode
  | jsonInvalid
  | listType
  | dictType
  | modelType
  | tagNotFound
  | tagInvalid
  | literalError
  | missing
  | scalar (fault : Scalar.Fault)
deriving DecidableEq, Repr

def Cause.name : Cause → String
  | stringUnicode => "string_unicode"
  | jsonInvalid => "json_invalid"
  | listType => "list_type"
  | dictType => "dict_type"
  | modelType => "model_type"
  | tagNotFound => "union_tag_not_found"
  | tagInvalid => "union_tag_invalid"
  | literalError => "literal_error"
  | missing => "missing"
  | scalar fault => fault.name

inductive Step where
  | index (n : Nat)
  | key (name : String)
deriving DecidableEq, Repr

abbrev Path := List Step

structure Issue where
  cause : Cause
  path : Path
deriving DecidableEq, Repr

abbrev Checked (α : Type) := Except (List Issue) α

namespace Checked

def fail {α : Type} (cause : Cause) (path : Path) : Checked α := .error [⟨cause, path⟩]

/-- Both values, or the issues of the first and then those of the second. -/
def both {α β γ : Type} (f : α → β → γ) : Checked α → Checked β → Checked γ
  | .ok a, .ok b => .ok (f a b)
  | .ok _, .error issues => .error issues
  | .error issues, .ok _ => .error issues
  | .error issues, .error issues' => .error (issues ++ issues')

def ofScalar {α : Type} (path : Path) : Except Scalar.Fault α → Checked α
  | .ok a => .ok a
  | .error fault => fail (.scalar fault) path

end Checked

/-- The names of a field: the wire name, and the one used in its absence. -/
structure Field where
  wire : String
  other : Option String := none

namespace Field

def value : Field := ⟨"value", none⟩
def name : Field := ⟨"value", some "name"⟩
def assignTo : Field := ⟨"assignTo", some "assign_to"⟩
def assignValue : Field := ⟨"assignValue", some "assign_value"⟩
def identifiers : Field := ⟨"identifiers", none⟩
def invokedValue : Field := ⟨"invokedValue", some "invoked_value"⟩
def argsList : Field := ⟨"argsList", some "args_list"⟩
def expressions : Field := ⟨"expressions", none⟩
def argList : Field := ⟨"argList", some "arg_list"⟩
def body : Field := ⟨"body", none⟩
def entries : Field := ⟨"entries", none⟩
def key : Field := ⟨"key", none⟩
def items : Field := ⟨"items", none⟩
def importFrom : Field := ⟨"importFrom", some "import_from"⟩

def find? (field : Field) (members : List (String × Json)) :
    Option { found : String × Json // sizeOf found.2 < sizeOf members } :=
  match h : Json.lookup? field.wire members with
  | some v => some ⟨(field.wire, v), Json.sizeOf_lookup? h⟩
  | none =>
    match field.other with
    | none => none
    | some other =>
      match h : Json.lookup? other members with
      | some v => some ⟨(other, v), Json.sizeOf_lookup? h⟩
      | none => none

def required {α : Type} (field : Field) (path : Path) (members : List (String × Json))
    (read : Path → (v : Json) → sizeOf v < sizeOf members → Checked α) : Checked α :=
  match field.find? members with
  | none => .fail .missing (path ++ [.key field.wire])
  | some ⟨(key, v), h⟩ => read (path ++ [.key key]) v h

/-- Reads a list field, which is empty when absent. -/
def list {α : Type} (field : Field) (path : Path) (members : List (String × Json))
    (read : Path → (items : List Json) → sizeOf items < sizeOf members → Checked (List α)) :
    Checked (List α) :=
  match field.find? members with
  | none => .ok []
  | some ⟨(key, .arr items), h⟩ => read (path ++ [.key key]) items (by simp at h; omega)
  | some ⟨(key, _), _⟩ => .fail .listType (path ++ [.key key])

end Field

/-- Where the kind of a node is fixed it may be left out, but another one is an error. -/
def checkKind (kind : Kind) (path : Path) (members : List (String × Json)) : Checked Unit :=
  match Json.lookup? "type" members with
  | none => .ok ()
  | some (.str s) =>
    if s = kind.name then .ok () else .fail .literalError (path ++ [.key "type"])
  | some _ => .fail .literalError (path ++ [.key "type"])

def kindOf (path : Path) (members : List (String × Json)) : Checked Kind :=
  match Json.lookup? "type" members with
  | none => .fail .tagNotFound path
  | some (.str s) =>
    match Kind.ofName? s with
    | some kind => .ok kind
    | none => .fail .tagInvalid path
  | some _ => .fail .tagInvalid path

def nameField (path : Path) (members : List (String × Json)) : Checked String :=
  Field.name.required path members fun path v _ => .ofScalar path (Scalar.toString v)

def textField (path : Path) (members : List (String × Json)) : Checked Text :=
  Field.value.required path members fun path v _ =>
    (Checked.ofScalar path (Scalar.toString v)).map Text.ofString

def identifier (path : Path) : Json → Checked String
  | .obj members =>
    .both (fun _ name => name) (checkKind .identifier path members) (nameField path members)
  | _ => .fail .modelType path

def stringLiteral (path : Path) : Json → Checked Text
  | .obj members =>
    .both (fun _ text => text) (checkKind .string path members) (textField path members)
  | _ => .fail .modelType path

def identifiers (path : Path) (index : Nat) : List Json → Checked (List String)
  | [] => .ok []
  | item :: items =>
    .both List.cons (identifier (path ++ [.index index]) item) (identifiers path (index + 1) items)

def namesField (path : Path) (members : List (String × Json)) : Checked (List String) :=
  Field.identifiers.list path members fun path items _ => identifiers path 0 items

def destructure (path : Path) : Json → Checked (List String)
  | .obj members =>
    .both (fun _ names => names) (checkKind .destructure path members) (namesField path members)
  | _ => .fail .modelType path

section
variable [Json.Edition]

mutual

def node (path : Path) : Json → Checked Node
  | .obj members =>
    match kindOf path members with
    | .error issues => .error issues
    | .ok kind => fields (path ++ [.key kind.name]) kind members
  | _ => .fail .dictType path
termination_by j => (sizeOf j, 1)

def fields (path : Path) (kind : Kind) (members : List (String × Json)) : Checked Node :=
  match kind with
  | .integer =>
    Field.value.required path members fun path v _ =>
      (Checked.ofScalar path (Scalar.toInt v)).map .integer
  | .float =>
    Field.value.required path members fun path v _ =>
      (Checked.ofScalar path (Scalar.toFloat v)).map .float
  | .boolean =>
    Field.value.required path members fun path v _ =>
      (Checked.ofScalar path (Scalar.toBool v)).map .boolean
  | .string => (textField path members).map .string
  | .identifier => (nameField path members).map .identifier
  | .assignment =>
    .both .assignment
      (Field.assignTo.required path members fun path v _ => node path v)
      (Field.assignValue.required path members fun path v _ => node path v)
  | .destructuredAssignment =>
    .both .destructuredAssignment
      (Field.assignTo.required path members fun path v _ => destructure path v)
      (Field.assignValue.required path members fun path v _ => node path v)
  | .destructure => (namesField path members).map .destructure
  | .invocation =>
    .both .invocation
      (Field.invokedValue.required path members fun path v _ => node path v)
      (Field.argsList.list path members fun path items _ => nodes path 0 items)
  | .function =>
    .both .function
      (Field.argList.list path members fun path items _ => parameters path 0 items)
      (Field.body.list path members fun path items _ => nodes path 0 items)
  | .arg =>
    (Field.expressions.list path members fun path items _ => nodes path 0 items).map .arg
  | .object =>
    (Field.entries.list path members fun path items _ => entries path 0 items).map .object
  | .array =>
    (Field.items.list path members fun path items _ => nodes path 0 items).map .array
  | .imports =>
    .both .imports
      (Field.assignTo.required path members fun path v _ => identifier path v)
      (Field.importFrom.required path members fun path v _ => stringLiteral path v)
termination_by (sizeOf members, 2)

def nodes (path : Path) (index : Nat) : List Json → Checked (List Node)
  | [] => .ok []
  | item :: items =>
    .both List.cons (node (path ++ [.index index]) item) (nodes path (index + 1) items)
termination_by items => (sizeOf items, 0)

def parameters (path : Path) (index : Nat) : List Json → Checked (List (List Node))
  | [] => .ok []
  | .obj members :: items =>
    .both List.cons
      (.both (fun _ expressions => expressions)
        (checkKind .arg (path ++ [.index index]) members)
        (Field.expressions.list (path ++ [.index index]) members
          fun path items _ => nodes path 0 items))
      (parameters path (index + 1) items)
  | _ :: items =>
    .both List.cons (.fail .modelType (path ++ [.index index])) (parameters path (index + 1) items)
termination_by items => (sizeOf items, 0)

def entries (path : Path) (index : Nat) : List Json → Checked (List (Node × Node))
  | [] => .ok []
  | .obj members :: items =>
    .both List.cons
      (.both Prod.mk
        (Field.key.required (path ++ [.index index]) members fun path v _ => node path v)
        (Field.value.required (path ++ [.index index]) members fun path v _ => node path v))
      (entries path (index + 1) items)
  | _ :: items =>
    .both List.cons (.fail .modelType (path ++ [.index index])) (entries path (index + 1) items)
termination_by items => (sizeOf items, 0)

end

end

end Load

namespace Program
variable [Json.Edition]

def ofJson : Json → Load.Checked Program
  | .arr items => Load.nodes [] 0 items
  | _ => .fail .listType []

def load (text : String) : Load.Checked Program :=
  match Json.read? text with
  | some j => ofJson j
  | none => .fail .jsonInvalid []

def loadText (text : Text) : Load.Checked Program :=
  match text.strict with
  | .ok s => load s
  | .error _ => .fail .stringUnicode []

end Program
end AwaitScript
