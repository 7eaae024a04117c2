/-!
Lines of a text. For places in a text only a line feed ends a line, and offsets count code points. Under the
rules of the reports ten characters break a line, and a carriage return takes a following line feed with it.
Text read from a file has its carriage returns turned into line feeds first.
-/

namespace AwaitScript

structure Position where
  line : Nat
  column : Nat
deriving DecidableEq, Repr

namespace Position

def after (before : List Char) : Position where
  line := before.count '\n' + 1
  column := (before.reverse.takeWhile (· ≠ '\n')).length + 1

def ofOffset (text : List Char) (offset : Nat) : Position := after (text.take offset)

end Position
end AwaitScript

namespace AwaitScript.LineBreak

def isBreak (c : Char) : Bool :=
  [0x0a, 0x0b, 0x0c, 0x0d, 0x1c, 0x1d, 0x1e, 0x85, 0x2028, 0x2029].contains c.toNat

/-- The number of lines; `started` says that the current line has a character already. -/
def countFrom (started : Bool) : List Char → Nat
  | [] => if started then 1 else 0
  | '\r' :: '\n' :: rest => countFrom false rest + 1
  | c :: rest => if isBreak c then countFrom false rest + 1 else countFrom true rest

def count (text : List Char) : Nat := countFrom false text

/-- Every carriage return, with the line feed after it if there is one, becomes a line feed. -/
def normalize : List Char → List Char
  | [] => []
  | '\r' :: '\n' :: rest => '\n' :: normalize rest
  | c :: rest => (if c = '\r' then '\n' else c) :: normalize rest

end AwaitScript.LineBreak
