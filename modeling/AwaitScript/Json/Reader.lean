import AwaitScript.Json.Value
import AwaitScript.Text.Literal

/-!
Reading a JSON document. Beyond the standard, the names `NaN`, `Infinity` and `-Infinity` are numbers.
A document may nest at most two hundred containers that hold something, and a number may have at most
4300 digits before its point; a lone surrogate in a string is refused.
-/

namespace AwaitScript.Json

/-- The reader comes in editions that differ in one rule: whether the minus sign in front of a number
counts as one of its digits. -/
class Edition where
  countsSign : Bool

-- the edition in use, which counts the digits alone
instance Edition.digitsOnly : Edition := ⟨false⟩

def numberLimit : Nat := 4300

def depthLimit : Nat := 200

def fits [Edition] (negative : Bool) (digits : Nat) : Bool :=
  digits + (if negative && Edition.countsSign then 1 else 0) ≤ numberLimit

def isBlank (c : Char) : Bool := c = ' ' || c = '\t' || c = '\n' || c = '\r'

def skipBlanks (cs : List Char) : List Char := cs.dropWhile isBlank

def number (digits : List Char) : Nat := digits.foldl (fun n c => 10 * n + (c.toNat - 48)) 0

def readFraction : List Char → Option (List Char × List Char)
  | '.' :: rest =>
    match rest.takeWhile Char.isDigit with
    | [] => none
    | digits => some (digits, rest.dropWhile Char.isDigit)
  | rest => some ([], rest)

def readSignedDigits (negative : Bool) (cs : List Char) : Option (Int × List Char) :=
  match cs.takeWhile Char.isDigit with
  | [] => none
  | digits =>
    some (if negative then -(number digits : Int) else number digits, cs.dropWhile Char.isDigit)

def readExponent : List Char → Option (Option Int × List Char)
  | c :: rest =>
    if c = 'e' || c = 'E' then
      (match rest with
        | '+' :: rest => readSignedDigits false rest
        | '-' :: rest => readSignedDigits true rest
        | rest => readSignedDigits false rest).map fun (e, rest) => (some e, rest)
    else some (none, c :: rest)
  | [] => some (none, [])

def readWhole : List Char → Option (List Char × List Char)
  | '0' :: rest => some (['0'], rest)
  | cs =>
    match cs.takeWhile Char.isDigit with
    | [] => none
    | digits => some (digits, cs.dropWhile Char.isDigit)

def readUnsigned [Edition] (negative : Bool) (cs : List Char) : Option (Json × List Char) := do
  let (whole, rest) ← readWhole cs
  if !fits negative whole.length then none
  let (fraction, rest') ← readFraction rest
  let (exponent?, rest'') ← readExponent rest'
  if fraction = [] ∧ exponent? = none then
    return (.int (if negative then -(number whole : Int) else number whole), rest'')
  return (.float (.ofDecimal negative (number (whole ++ fraction))
    (exponent?.getD 0 - fraction.length)), rest'')

def readWord (word : String) (cs : List Char) : Option (List Char) :=
  if word.toList.isPrefixOf cs then some (cs.drop word.length) else none

def readString (cs : List Char) : Option (String × List Char) :=
  match Literal.readBody cs with
  | .error _ => none
  | .ok (text, rest) => text.toString?.map fun s => (s, rest)

def readSequence {α : Type} (item : List Char → Option (α × List Char)) (close : Char)
    (cs : List Char) : Option (List α × List Char) :=
  match item cs with
  | none => none
  | some (a, rest) =>
    match skipBlanks rest with
    | [] => none
    | c :: rest' =>
      if c = close then some ([a], rest')
      else if _ : c = ',' ∧ rest'.length < cs.length then
        (readSequence item close rest').map fun (as, rest) => (a :: as, rest)
      else none
termination_by cs.length
decreasing_by omega

def readMember (value : List Char → Option (Json × List Char)) (cs : List Char) :
    Option ((String × Json) × List Char) :=
  match skipBlanks cs with
  | '"' :: rest => do
    let (key, rest) ← readString rest
    match skipBlanks rest with
    | ':' :: rest => (value rest).map fun (v, rest) => ((key, v), rest)
    | _ => none
  | _ => none

/-- A value, inside of which `depth` more containers may be opened that are not empty. -/
def readValue [Edition] (depth : Nat) (cs : List Char) : Option (Json × List Char) :=
  match skipBlanks cs with
  | 'n' :: rest => (readWord "ull" rest).map (.null, ·)
  | 't' :: rest => (readWord "rue" rest).map (.bool true, ·)
  | 'f' :: rest => (readWord "alse" rest).map (.bool false, ·)
  | 'N' :: rest => (readWord "aN" rest).map (.float .nan, ·)
  | 'I' :: rest => (readWord "nfinity" rest).map (.float (.infinite false), ·)
  | '-' :: 'I' :: rest => (readWord "nfinity" rest).map (.float (.infinite true), ·)
  | '-' :: rest => readUnsigned true rest
  | '"' :: rest => (readString rest).map fun (s, rest) => (.str s, rest)
  | '[' :: rest =>
    match skipBlanks rest, depth with
    | ']' :: rest, _ => some (.arr [], rest)
    | _, 0 => none
    | _, depth + 1 =>
      (readSequence (readValue depth) ']' rest).map fun (items, rest) => (.arr items, rest)
  | '\x7b' :: rest =>
    match skipBlanks rest, depth with
    | '\x7d' :: rest, _ => some (.obj [], rest)
    | _, 0 => none
    | _, depth + 1 =>
      (readSequence (readMember (readValue depth)) '\x7d' rest).map fun (members, rest) =>
        (.obj members, rest)
  | rest => readUnsigned false rest

/-- A whole document that nests no deeper than `depth`. -/
def readWithin [Edition] (depth : Nat) (text : String) : Option Json :=
  match readValue depth text.toList with
  | some (j, rest) => if skipBlanks rest = [] then some j else none
  | none => none

def read? [Edition] (text : String) : Option Json := readWithin depthLimit text

end AwaitScript.Json
