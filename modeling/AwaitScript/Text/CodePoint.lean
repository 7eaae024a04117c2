import AwaitScript.Text.Digit

/-!
Text in which half of a surrogate pair may stand alone, as an escape in a string literal can ask for.
Such text has no encoding, so turning it into a `String` can fail.
-/

namespace AwaitScript

/-- A Unicode code point: a character, or one of the 2048 surrogates counted from U+D800. -/
inductive CodePoint where
  | scalar (c : Char)
  | surrogate (index : Fin 0x800)
deriving DecidableEq, Repr

namespace CodePoint

def char? : CodePoint → Option Char
  | scalar c => some c
  | surrogate _ => none

def ofUnit (unit : Fin 0x10000) : CodePoint :=
  if h : 0xD800 ≤ unit.val ∧ unit.val < 0xE000 then surrogate ⟨unit.val - 0xD800, by omega⟩
  else scalar (Char.ofNat unit.val)

def escape (index : Fin 0x800) : List Char := '\\' :: 'u' :: Hexadecimal.write 4 (0xD800 + index.val)

def ofPair (high low : Fin 0x800) : CodePoint :=
  scalar (Char.ofNat (0x10000 + high.val * 0x400 + (low.val - 0x400)))

end CodePoint

abbrev Text := List CodePoint

namespace Text

def ofString (s : String) : Text := s.toList.map .scalar

instance : Coe String Text := ⟨ofString⟩

def toString? (t : Text) : Option String := (t.mapM CodePoint.char?).map String.ofList

def isScalar (t : Text) : Bool := t.all fun c => c.char?.isSome

def masked (t : Text) : List Char := t.map fun p => p.char?.getD '\uFFFD'

def shown (t : Text) : String :=
  String.ofList (t.flatMap fun
    | .scalar c => [c]
    | .surrogate index => CodePoint.escape index)

structure Stray where
  start : Nat
  length : Nat
  first : Fin 0x800
deriving DecidableEq, Repr

def Stray.message (s : Stray) : String :=
  if s.length = 1 then
    "'utf-8' codec can't encode character '" ++ String.ofList (CodePoint.escape s.first) ++
      s!"' in position {s.start}: surrogates not allowed"
  else
    let last := s.start + s.length - 1
    s!"'utf-8' codec can't encode characters in position {s.start}-{last}: surrogates not allowed"

def checkFrom (keeps : Fin 0x800 → Bool) (offset : Nat) : Text → Except Stray Unit
  | [] => .ok ()
  | .scalar _ :: rest => checkFrom keeps (offset + 1) rest
  | .surrogate index :: rest =>
    if keeps index then checkFrom keeps (offset + 1) rest
    else .error ⟨offset, (rest.takeWhile fun p => p.char?.isNone).length + 1, index⟩

/-- The text as a string, or the surrogates because of which it is none. -/
def strict (t : Text) : Except Stray String :=
  (checkFrom (fun _ => false) 0 t).map fun _ => String.ofList (t.filterMap CodePoint.char?)

/-- Puts a code unit in front, joining a high surrogate to a low one that follows it. -/
def consUnit (unit : Fin 0x10000) (t : Text) : Text :=
  match CodePoint.ofUnit unit, t with
  | .surrogate high, .surrogate low :: rest =>
    if high.val < 0x400 ∧ 0x400 ≤ low.val then CodePoint.ofPair high low :: rest
    else .surrogate high :: t
  | p, _ => p :: t

end Text
end AwaitScript
