import AwaitScript.Emission.Tree

/-!
Splicing fragments into one line of text that may open blocks on its way: the first line of a fragment
continues the last line of the one before.
-/

namespace AwaitScript.Emission

inductive SpliceError where
  | notBlock
  | endsInGroup
deriving DecidableEq, Repr

def SpliceError.message : SpliceError → String
  | notBlock => "Only block groups can be spliced inline"
  | endsInGroup => "Cannot continue a fragment that ends in a group"

def block : Emission → Except SpliceError (String × List Emission)
  | line text => .ok (text, [])
  | group (line text :: rest) => .ok (text, rest)
  | group _ => .error .notBlock

/-- Continues `parts`, which holds the last part first. -/
def splice (parts : List Emission) : List Emission → Except SpliceError (List Emission)
  | [] => .ok parts
  | fragment :: fragments =>
    match block fragment with
    | .error e => .error e
    | .ok (text, rest) =>
      match parts with
      | line last :: before => splice (rest.reverse ++ line (last ++ text) :: before) fragments
      | _ => .error .endsInGroup

def ofParts : List Emission → Emission
  | [part] => part
  | parts => group parts

def concat (fragments : List Emission) : Except SpliceError Emission :=
  (splice [line ""] fragments).map fun parts => ofParts parts.reverse

def join (separator : String) (fragments : List Emission) : Except SpliceError Emission :=
  concat (fragments.intersperse (line separator))

end AwaitScript.Emission
