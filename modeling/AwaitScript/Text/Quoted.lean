import AwaitScript.Text.CodePoint
import AwaitScript.Text.Printable

/-!
Text quoted for a message. Single quotes are used unless the text has a single quote and no double one;
what cannot be shown is escaped.
-/

namespace AwaitScript.Quoted

def mark (text : List Char) : Char :=
  if text.contains '\'' && !text.contains '"' then '"' else '\''

def escape (quote c : Char) : List Char :=
  if c = quote || c = '\\' then ['\\', c]
  else if c = '\n' then ['\\', 'n']
  else if c = '\r' then ['\\', 'r']
  else if c = '\t' then ['\\', 't']
  else if isPrintable c then [c]
  else if c.toNat < 0x100 then '\\' :: 'x' :: Hexadecimal.write 2 c.toNat
  else if c.toNat < 0x10000 then '\\' :: 'u' :: Hexadecimal.write 4 c.toNat
  else '\\' :: 'U' :: Hexadecimal.write 8 c.toNat

def quote (text : Text) : List Char :=
  let q := mark (text.filterMap CodePoint.char?)
  let inside := text.flatMap fun
    | .scalar c => escape q c
    | .surrogate index => CodePoint.escape index
  q :: inside ++ [q]

end AwaitScript.Quoted

namespace AwaitScript

def quoted (text : Text) : String := String.ofList (Quoted.quote text)

end AwaitScript
