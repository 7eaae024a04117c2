import AwaitScript.Emission.Splice
import AwaitScript.Text.Plain

/-!
Trees from outside that may hold values of another sort. Such a value is refused where it is met, and
what stands before it is treated as usual.
-/

namespace AwaitScript.Emission

inductive Loose where
  | line (text : String)
  | group (children : List Loose)
  | foreign (value : Plain)
deriving Repr

inductive Refusal where
  | foreign (value : Plain)
  | splice (e : SpliceError)
deriving Repr

def Refusal.message : Refusal → String
  | foreign value => "Not an emission node: " ++ value.render
  | splice e => e.message

namespace Loose

def foreign? : Loose → Option Plain
  | foreign value => some value
  | _ => none

mutual

/-- The tree without foreign values, or the first of them. -/
def toEmission : Loose → Except Refusal Emission
  | .line text => .ok (.line text)
  | .group children => (listToEmission children).map .group
  | .foreign value => .error (.foreign value)

def listToEmission : List Loose → Except Refusal (List Emission)
  | [] => .ok []
  | child :: children => do
    let e ← toEmission child
    let es ← listToEmission children
    return e :: es

end

def flatten (unit indentation : String) (children : List Loose) : Except Refusal String :=
  (listToEmission children).map (Emission.flatten unit indentation)

/-- The first line of a fragment and what follows it, whatever that is. -/
def block : Loose → Except Refusal (String × List Loose)
  | line text => .ok (text, [])
  | group (line text :: rest) => .ok (text, rest)
  | group _ => .error (.splice .notBlock)
  | foreign value => .error (.foreign value)

def splice (parts : List Loose) : List Loose → Except Refusal (List Loose)
  | [] => .ok parts
  | fragment :: fragments =>
    match block fragment with
    | .error e => .error e
    | .ok (text, rest) =>
      match parts with
      | line last :: before => splice (rest.reverse ++ line (last ++ text) :: before) fragments
      | _ => .error (.splice .endsInGroup)

def ofParts : List Loose → Loose
  | [part] => part
  | parts => group parts

def concat (fragments : List Loose) : Except Refusal Loose :=
  (splice [line ""] fragments).map fun parts => ofParts parts.reverse

def join (separator : String) (fragments : List Loose) : Except Refusal Loose :=
  concat (fragments.intersperse (.line separator))

end Loose
end AwaitScript.Emission
