import AwaitScript.Text.CodePoint
import AwaitScript.Text.Digit

/-!
Double-quoted string literals, as source programs and syntax trees spell them. Reading stops at the
first fault; writing escapes what the chosen style does not leave plain.
-/

namespace AwaitScript.Literal

inductive Fault where
  | badEscape
  | badUnicodeEscape
  | controlCharacter
  | unterminated
  | trailingText
  | noValue
deriving DecidableEq, Repr

def Fault.message : Fault → String
  | badEscape => "Invalid \\escape"
  | badUnicodeEscape => "Invalid \\uXXXX escape"
  | controlCharacter => "Invalid control character at"
  | unterminated => "Unterminated string starting at"
  | trailingText => "Extra data"
  | noValue => "Expecting value"

def unit? (a b c d : Char) : Option (Fin 0x10000) := do
  let a ← Hexadecimal.value? a
  let b ← Hexadecimal.value? b
  let c ← Hexadecimal.value? c
  let d ← Hexadecimal.value? d
  return ⟨a.val * 0x1000 + b.val * 0x100 + c.val * 0x10 + d.val, by omega⟩

def escaped? : Char → Option Char
  | '"' => some '"'
  | '\\' => some '\\'
  | '/' => some '/'
  | 'b' => some '\x08'
  | 'f' => some '\x0c'
  | 'n' => some '\n'
  | 'r' => some '\r'
  | 't' => some '\t'
  | _ => none

/-- Reads up to the closing quote and returns what follows it as well. -/
def readBody : List Char → Except Fault (Text × List Char)
  | [] => .error .unterminated
  | '"' :: rest => .ok ([], rest)
  | '\\' :: 'u' :: a :: b :: c :: d :: rest =>
    match unit? a b c d with
    | none => .error .badUnicodeEscape
    | some unit => (readBody rest).map fun (text, rest) => (text.consUnit unit, rest)
  | '\\' :: 'u' :: _ => .error .badUnicodeEscape
  | '\\' :: c :: rest =>
    match escaped? c with
    | none => .error .badEscape
    | some c => (readBody rest).map fun (text, rest) => (.scalar c :: text, rest)
  | '\\' :: [] => .error .unterminated
  | c :: rest =>
    if c.toNat < 0x20 then .error .controlCharacter
    else (readBody rest).map fun (text, rest) => (.scalar c :: text, rest)

def read : List Char → Except Fault Text
  | '"' :: body =>
    match readBody body with
    | .error fault => .error fault
    | .ok (text, []) => .ok text
    | .ok (_, _ :: _) => .error .trailingText
  | _ => .error .noValue

/-- Which characters are written as they are, quotes and backslashes apart. -/
abbrev Style := Char → Bool

def unicode : Style := fun c => 0x20 ≤ c.toNat

def ascii : Style := fun c => 0x20 ≤ c.toNat && c.toNat < 0x7f

def units (c : Char) : List Nat :=
  if c.toNat < 0x10000 then [c.toNat]
  else [0xD800 + (c.toNat - 0x10000) / 0x400, 0xDC00 + (c.toNat - 0x10000) % 0x400]

def writeChar (plain : Style) : Char → List Char
  | '"' => ['\\', '"']
  | '\\' => ['\\', '\\']
  | '\x08' => ['\\', 'b']
  | '\x0c' => ['\\', 'f']
  | '\n' => ['\\', 'n']
  | '\r' => ['\\', 'r']
  | '\t' => ['\\', 't']
  | c => if plain c then [c] else (units c).flatMap fun n => '\\' :: 'u' :: Hexadecimal.write 4 n

def write (plain : Style) (text : List Char) : List Char :=
  '"' :: text.flatMap (writeChar plain) ++ ['"']

end AwaitScript.Literal
