import AwaitScript.Binary64.Basic

/-!
The text of a number: the fewest digits that read back as the number, of two such the nearer one. From
10⁻⁵ up to 10¹⁶ it is written with a decimal point, otherwise with an exponent.
-/

namespace AwaitScript.Binary64

structure Decimal where
  digits : Nat
  exponent : Int
deriving DecidableEq, Repr

namespace Decimal

/-- The two decimals with last place `exponent` around `n / d`, the nearer one first and of two equally
near the even one. -/
def around (n d : Nat) (exponent : Int) : List Decimal :=
  let n := if exponent < 0 then n * Nat.pow 10 exponent.natAbs else n
  let d := if exponent < 0 then d else d * Nat.pow 10 exponent.natAbs
  let below := n / d
  let rest := n % d
  if 2 * rest < d ∨ 2 * rest = d ∧ below % 2 = 0 then [⟨below, exponent⟩, ⟨below + 1, exponent⟩]
  else [⟨below + 1, exponent⟩, ⟨below, exponent⟩]

def magnitude (n d : Nat) : Int :=
  if d ≤ n then (Nat.toDigits 10 (n / d)).length else 1 - (Nat.toDigits 10 (d / n)).length

def exact (rank : Nat) : Decimal := ⟨steps rank * Nat.pow 5 1074, -1074⟩

def shortest (rank : Nat) : Decimal :=
  let n := steps rank
  let top := magnitude n one
  let reads (c : Decimal) : Bool := ofDecimal false c.digits c.exponent = ofRank false rank
  let found? := (List.range 17).findSome? fun i => (around n one (top - (i + 1 : Nat))).find? reads
  found?.getD (exact rank)

/-- With a point: the digits are shifted so that `point` of them stand before it. -/
def positional (digits : List Char) (point : Int) : List Char :=
  if point ≤ 0 then '0' :: '.' :: List.replicate point.natAbs '0' ++ digits
  else if digits.length ≤ point.natAbs then
    digits ++ List.replicate (point.natAbs - digits.length) '0' ++ ['.', '0']
  else digits.take point.natAbs ++ '.' :: digits.drop point.natAbs

def scientific (digits : List Char) (exponent : Int) : List Char :=
  let lead := digits.take 1
  let rest := digits.drop 1
  lead ++ (if rest = [] then [] else '.' :: rest) ++
    'e' :: (if exponent < 0 then '-' else '+') :: Nat.toDigits 10 exponent.natAbs

def trimZeros (digits : List Char) : List Char := (digits.reverse.dropWhile (· = '0')).reverse

def write (x : Decimal) : List Char :=
  let digits := trimZeros (Nat.toDigits 10 x.digits)
  let point := (Nat.toDigits 10 x.digits).length + x.exponent
  if x.digits = 0 then ['0', '.', '0']
  else if -4 ≤ point ∧ point ≤ 16 then positional digits point
  else scientific digits (point - 1)

end Decimal

def write? : Binary64 → Option (List Char)
  | finite negative rank =>
    let text := (Decimal.shortest rank).write
    some (if negative then '-' :: text else text)
  | _ => none

end AwaitScript.Binary64
