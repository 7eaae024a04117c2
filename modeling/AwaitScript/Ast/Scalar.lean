import AwaitScript.Json.Reader

/-!
Values of literals as a JSON tree may spell them. Reading is generous: a number may come as a string, a
truth value as a number or a word. What is refused has one cause for each way of failing.
-/

namespace AwaitScript.Scalar

inductive Fault where
  | intType
  | intParsing
  | intParsingSize
  | intFromFloat
  | finiteNumber
  | floatType
  | floatParsing
  | boolType
  | boolParsing
  | stringType
deriving DecidableEq, Repr

def Fault.name : Fault → String
  | intType => "int_type"
  | intParsing => "int_parsing"
  | intParsingSize => "int_parsing_size"
  | intFromFloat => "int_from_float"
  | finiteNumber => "finite_number"
  | floatType => "float_type"
  | floatParsing => "float_parsing"
  | boolType => "bool_type"
  | boolParsing => "bool_parsing"
  | stringType => "string_type"

def isSpace (c : Char) : Bool :=
  let n := c.toNat
  (0x09 ≤ n && n ≤ 0x0d) || (0x2000 ≤ n && n ≤ 0x200a) ||
    [0x20, 0x85, 0xa0, 0x1680, 0x2028, 0x2029, 0x202f, 0x205f, 0x3000].contains n

def trim (cs : List Char) : List Char :=
  ((cs.dropWhile isSpace).reverse.dropWhile isSpace).reverse

def takeSign : List Char → Bool × List Char
  | '-' :: rest => (true, rest)
  | '+' :: rest => (false, rest)
  | cs => (false, cs)

def takeMinus : List Char → Bool × List Char
  | '-' :: rest => (true, rest)
  | cs => (false, cs)

def dropPlus : List Char → Option (List Char)
  | '+' :: '-' :: _ => none
  | '+' :: rest => some rest
  | cs => some cs

def startsInteger (c : Char) : Bool := c.isDigit || c = '-'

/-- Drops zeros in front, with underscores among them, as far as another digit or a minus sign. Before a
point and at the end of the text the last of them stays. -/
def dropZeros : List Char → Option (List Char)
  | [] => none
  | '0' :: rest =>
    let last := (rest.takeWhile fun c => c = '0' || c = '_').getLast?.getD '0'
    match rest.dropWhile fun c => c = '0' || c = '_' with
    | [] => some [last]
    | '.' :: rest => some (last :: '.' :: rest)
    | c :: rest => if startsInteger c then some (c :: rest) else none
  | c :: rest => if startsInteger c then some (c :: rest) else none

def dropZeroFraction (cs : List Char) : List Char :=
  match cs.dropWhile (· ≠ '.') with
  | '.' :: '0' :: zeros => if zeros.all (· = '0') then cs.takeWhile (· ≠ '.') else cs
  | _ => cs

def hasDoubleUnderscore : List Char → Bool
  | '_' :: '_' :: _ => true
  | _ :: rest => hasDoubleUnderscore rest
  | [] => false

/-- Drops underscores, each of which must stand alone between two other characters. -/
def dropUnderscores (cs : List Char) : Option (List Char) :=
  if cs.head? = some '_' || cs.getLast? = some '_' || hasDoubleUnderscore cs then none
  else some (cs.filter (· ≠ '_'))

/-- Digits without what a generous reader overlooks: zeros in front, zeros after a point, underscores. -/
def tidyDigits (cs : List Char) : Option (List Char) := do
  dropUnderscores (dropZeroFraction (← dropZeros cs))

/-- A spelling without blanks around it, a plus sign, and what is overlooked among its digits. -/
def tidy (cs : List Char) : Option (List Char) := do
  match ← dropPlus (trim cs) with
  | '-' :: digits => (tidyDigits digits).map ('-' :: ·)
  | digits => tidyDigits digits

section
variable [Json.Edition]

def plainInt? (cs : List Char) : Option Int :=
  let (negative, digits) := takeMinus cs
  match Json.readUnsigned negative digits with
  | some (.int i, []) => some i
  | _ => none

/-- Whether the text starts as a plain integer with too many digits, whatever comes after them. -/
def isOversize (cs : List Char) : Bool :=
  let (negative, digits) := takeMinus cs
  (Json.readWhole digits).any fun (whole, _) => !Json.fits negative whole.length

/-- The integer that a string spells. Its size is a fault of its own only where the text is plain from
its first character. -/
def intOfString (cs : List Char) : Except Fault Int :=
  if isOversize cs then .error .intParsingSize
  else
    match (tidy cs).bind plainInt? with
    | some i => .ok i
    | none => .error .intParsing

def toInt : Json → Except Fault Int
  | .int i => .ok i
  | .bool b => .ok (if b then 1 else 0)
  | .float (.finite negative rank) =>
    match Binary64.toInt? (.finite negative rank) with
    | none => .error .intFromFloat
    | some i => if i.natAbs < 0x8000000000000000 then .ok i else .error .intParsingSize
  | .float _ => .error .finiteNumber
  | .str s => intOfString s.toList
  | _ => .error .intType

end

/-- The digits before and after a point, of which there must be one, and the exponent. -/
def decimalOfString? (negative : Bool) (cs : List Char) : Option Binary64 := do
  let whole := cs.takeWhile Char.isDigit
  let rest := cs.dropWhile Char.isDigit
  let (fraction, rest) := match rest with
    | '.' :: rest => (rest.takeWhile Char.isDigit, rest.dropWhile Char.isDigit)
    | rest => ([], rest)
  if whole = [] ∧ fraction = [] then none
  let (exponent?, rest) ← Json.readExponent rest
  if rest ≠ [] then none
  return .ofDecimal negative (Json.number (whole ++ fraction)) (exponent?.getD 0 - fraction.length)

/-- The number that a string spells, names of infinity and of no number included. -/
def floatOfString? (cs : List Char) : Option Binary64 :=
  let (negative, unsigned) := takeSign cs
  let word := String.ofList (unsigned.map Char.toLower)
  if word = "inf" ∨ word = "infinity" then some (.infinite negative)
  else if word = "nan" then some .nan
  else decimalOfString? negative unsigned

def toFloat : Json → Except Fault Binary64
  | .float x => .ok x
  | .int i => .ok (.ofInt i)
  | .bool b => .ok (.ofInt (if b then 1 else 0))
  | .str s =>
    match floatOfString? (trim s.toList) <|> (dropUnderscores s.toList).bind floatOfString? with
    | some x => .ok x
    | none => .error .floatParsing
  | _ => .error .floatType

/-- A number that is no truth value is refused as such if it is an integer in range. -/
def boolOfInt (inRange : Bool) (i : Int) : Except Fault Bool :=
  if i = 0 then .ok false
  else if i = 1 then .ok true
  else .error (if inRange then .boolParsing else .boolType)

-- the reader takes integers of more than eighteen digits for large ones, whatever their value
def toBool : Json → Except Fault Bool
  | .bool b => .ok b
  | .int i => boolOfInt (i.natAbs < Nat.pow 10 18) i
  | .float x =>
    match x.toInt? with
    | some i => boolOfInt (i.natAbs < 0x8000000000000000) i
    | none => .error .boolType
  | .str s =>
    let word := String.ofList (s.toList.map Char.toLower)
    if ["0", "off", "f", "false", "n", "no"].contains word then .ok false
    else if ["1", "on", "t", "true", "y", "yes"].contains word then .ok true
    else .error .boolParsing
  | _ => .error .boolType

def toString : Json → Except Fault String
  | .str s => .ok s
  | _ => .error .stringType

end AwaitScript.Scalar
