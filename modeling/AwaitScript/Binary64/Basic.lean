/-!
Floating-point numbers of 64 bits as an exact datatype. A finite magnitude is known by its rank among
all finite magnitudes, and every magnitude is a whole number of steps of 2⁻¹⁰⁷⁴, so that rounding is
arithmetic of natural numbers.
-/

namespace AwaitScript

/-- The quotient rounded to the nearest whole number, a half to the even neighbour. -/
def roundDiv (n d : Nat) : Nat :=
  let q := n / d
  let r := n % d
  if 2 * r < d then q else if 2 * r = d then q + q % 2 else q + 1

abbrev Binary64.fractions : Nat := Nat.pow 2 52

/-- How many finite magnitudes there are: 2047 exponents with 2⁵² fractions each. -/
abbrev Binary64.ranks : Nat := 2047 * Binary64.fractions

inductive Binary64 where
  | finite (negative : Bool) (rank : Fin Binary64.ranks)
  | infinite (negative : Bool)
  | nan
deriving DecidableEq, Repr

namespace Binary64

/-- The number of steps in one: magnitudes are counted in steps of 2⁻¹⁰⁷⁴. -/
abbrev one : Nat := Nat.pow 2 1074

/-- The magnitude of a rank, in steps. Below 2⁵³ ranks and steps agree; after that each 2⁵² ranks the
distance between neighbours doubles. -/
def steps (rank : Nat) : Nat :=
  if rank < fractions then rank
  else (fractions + rank % fractions) * Nat.pow 2 (rank / fractions - 1)

/-- The rank nearest to `n / d` steps, a half to the even neighbour. A significand that is rounded up
to 2⁵³ gives the first rank of the next exponent. -/
def rankOf (n d : Nat) : Nat :=
  let shift := Nat.log2 (n / d) - 52
  shift * fractions + roundDiv n (d * Nat.pow 2 shift)

def ofRank (negative : Bool) (rank : Nat) : Binary64 :=
  if h : rank < ranks then finite negative ⟨rank, h⟩ else infinite negative

def ofRatio (negative : Bool) (n d : Nat) : Binary64 := ofRank negative (rankOf (n * one) d)

/-- The number nearest to `digits` times ten to the `exponent`. An exponent far out of range is settled
without computing the power. -/
def ofDecimal (negative : Bool) (digits : Nat) (exponent : Int) : Binary64 :=
  let magnitude := exponent + (Nat.toDigits 10 digits).length
  if digits = 0 ∨ magnitude < -330 then ofRank negative 0
  else if 310 < magnitude then infinite negative
  else if exponent < 0 then ofRatio negative digits (Nat.pow 10 exponent.natAbs)
  else ofRatio negative (digits * Nat.pow 10 exponent.natAbs) 1

def ofInt (i : Int) : Binary64 := ofDecimal (i < 0) i.natAbs 0

def toInt? : Binary64 → Option Int
  | finite negative rank =>
    let s := steps rank
    if s % one ≠ 0 then none
    else if negative then some (-(s / one : Nat)) else some (s / one : Nat)
  | _ => none

end Binary64
end AwaitScript
