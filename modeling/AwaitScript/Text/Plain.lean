import AwaitScript.Text.Quoted

/-!
Plain values and how a message shows them.
-/

namespace AwaitScript

inductive Plain where
  | null
  | bool (value : Bool)
  | int (value : Int)
  | str (value : String)
  | list (items : List Plain)
deriving Repr

namespace Plain

mutual

def render : Plain → String
  | .null => "None"
  | .bool true => "True"
  | .bool false => "False"
  | .int i => toString i
  | .str s => quoted s
  | .list items => "[" ++ ", ".intercalate (renderAll items) ++ "]"

def renderAll : List Plain → List String
  | [] => []
  | item :: items => render item :: renderAll items

end

end Plain
end AwaitScript
