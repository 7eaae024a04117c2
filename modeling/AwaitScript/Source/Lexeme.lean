import AwaitScript.Source.Token

/-!
Source text as a list of tokens with the offset of each. Blanks stand between tokens and are dropped.
-/

namespace AwaitScript

structure Lexeme where
  token : Token
  offset : Nat
deriving DecidableEq, Repr

namespace Lexeme

/-- The lexemes of text that starts at `offset`. `afterOperand` says that an operand ended before it
on the same line. -/
def scanFrom (afterOperand : Bool) (offset : Nat) : List Char → List Lexeme
  | [] => []
  | c :: cs =>
    if Token.isBlank c then scanFrom (afterOperand && c ≠ '\n') (offset + 1) cs
    else
      let scanned := Token.scan afterOperand c cs
      ⟨scanned.1, offset⟩ ::
        scanFrom scanned.1.endsOperand (offset + scanned.1.text.length) scanned.2
termination_by cs => cs.length
decreasing_by
  · simp
  · have := Token.length_scan_le afterOperand c cs
    simp only [List.length_cons]
    omega

def scan (text : List Char) : List Lexeme := scanFrom false 0 text

end Lexeme
end AwaitScript
