import AwaitScript.Text.Digit

/-!
The tokens of source text. A parenthesis that follows an operand on its line opens a call, any other
one opens a list of parameters. A character that starts no token is a token of its own, which no
program has.
-/

namespace AwaitScript

inductive Token where
  | word (text : String)
  | int (digits : String)
  | float (whole fraction : String)
  | string (text : String)
  | openParen
  | callParen
  | closeParen
  | openBrace
  | closeBrace
  | openBracket
  | closeBracket
  | comma
  | colon
  | equals
  | arrow
  | stray (c : Char)
deriving DecidableEq, Repr

namespace Token

def text : Token → List Char
  | word text => text.toList
  | int digits => digits.toList
  | float whole fraction => whole.toList ++ '.' :: fraction.toList
  | string text => text.toList
  | openParen | callParen => ['(']
  | closeParen => [')']
  | openBrace => ['\x7b']
  | closeBrace => ['\x7d']
  | openBracket => ['[']
  | closeBracket => [']']
  | comma => [',']
  | colon => [':']
  | equals => ['=']
  | arrow => ['=', '>']
  | stray c => [c]

/-- Whether an operand may end here, so that a parenthesis after it opens a call. -/
def endsOperand : Token → Bool
  | word _ | int _ | float _ _ | string _ | closeParen | closeBrace | closeBracket => true
  | _ => false

def isBlank (c : Char) : Bool := c = ' ' || c = '\t' || c = '\x0c' || c = '\r' || c = '\n'

def isWordStart (c : Char) : Bool := c.isAlpha || c = '_' || c = '$'

def isWordPart (c : Char) : Bool := c.isAlphanum || c = '_' || c = '$'

/-- The rest of a string through its closing quote, and what follows. A backslash takes the next
character with it, and a string does not go past its line. -/
def scanString : List Char → Option (List Char × List Char)
  | [] => none
  | '"' :: rest => some (['"'], rest)
  | '\n' :: _ => none
  | '\\' :: '\n' :: _ => none
  | '\\' :: c :: rest => (scanString rest).map fun (body, rest) => ('\\' :: c :: body, rest)
  | c :: rest => (scanString rest).map fun (body, rest) => (c :: body, rest)

/-- A number that starts with the digit `c`. A point belongs to it only between digits. -/
def scanNumber (c : Char) (cs : List Char) : Token × List Char :=
  let whole := String.ofList (c :: cs.takeWhile DecimalDigit.isDigit)
  match cs.dropWhile DecimalDigit.isDigit with
  | '.' :: d :: rest =>
    if DecimalDigit.isDigit d then
      (float whole (String.ofList (d :: rest.takeWhile DecimalDigit.isDigit)),
        rest.dropWhile DecimalDigit.isDigit)
    else (int whole, '.' :: d :: rest)
  | rest => (int whole, rest)

def scanMark (afterOperand : Bool) : Char → List Char → Token × List Char
  | '(', cs => (if afterOperand then callParen else openParen, cs)
  | ')', cs => (closeParen, cs)
  | '\x7b', cs => (openBrace, cs)
  | '\x7d', cs => (closeBrace, cs)
  | '[', cs => (openBracket, cs)
  | ']', cs => (closeBracket, cs)
  | ',', cs => (comma, cs)
  | ':', cs => (colon, cs)
  | '=', '>' :: cs => (arrow, cs)
  | '=', cs => (equals, cs)
  | '"', cs =>
    match scanString cs with
    | some (body, rest) => (string (String.ofList ('"' :: body)), rest)
    | none => (stray '"', cs)
  | c, cs => (stray c, cs)

def scan (afterOperand : Bool) (c : Char) (cs : List Char) : Token × List Char :=
  if isWordStart c then
    (word (String.ofList (c :: cs.takeWhile isWordPart)), cs.dropWhile isWordPart)
  else if DecimalDigit.isDigit c then scanNumber c cs
  else scanMark afterOperand c cs

theorem text_scanString {cs body rest : List Char} (h : scanString cs = some (body, rest)) :
    body ++ rest = cs := by
  fun_induction scanString cs generalizing body rest with
  | case1 => simp at h
  | case2 => obtain ⟨rfl, rfl⟩ : ['"'] = body ∧ _ = rest := by simpa using h
             rfl
  | case3 => simp at h
  | case4 => simp at h
  | case5 c tail _ ih =>
    obtain ⟨⟨b, r⟩, hb, he⟩ := Option.map_eq_some_iff.1 h
    obtain ⟨rfl, rfl⟩ := Prod.mk.inj he
    simp [ih hb]
  | case6 c tail _ _ _ _ ih =>
    obtain ⟨⟨b, r⟩, hb, he⟩ := Option.map_eq_some_iff.1 h
    obtain ⟨rfl, rfl⟩ := Prod.mk.inj he
    simp [ih hb]

theorem text_scanNumber (c : Char) (cs : List Char) :
    (scanNumber c cs).1.text ++ (scanNumber c cs).2 = c :: cs := by
  have h := List.takeWhile_append_dropWhile (p := DecimalDigit.isDigit) (l := cs)
  unfold scanNumber
  split
  · next d rest he =>
    rw [he] at h
    split
    · simp [text, List.takeWhile_append_dropWhile, h]
    · simp [text, h]
  · simp [text, h]

theorem text_scanMark (afterOperand : Bool) (c : Char) (cs : List Char) :
    (scanMark afterOperand c cs).1.text ++ (scanMark afterOperand c cs).2 = c :: cs := by
  fun_cases scanMark afterOperand c cs <;> try rfl
  · cases afterOperand <;> rfl
  · next body rest h => simp [text, text_scanString h]

theorem text_scan (afterOperand : Bool) (c : Char) (cs : List Char) :
    (scan afterOperand c cs).1.text ++ (scan afterOperand c cs).2 = c :: cs := by
  unfold scan
  split
  · simp [text, List.takeWhile_append_dropWhile]
  split
  · exact text_scanNumber c cs
  · exact text_scanMark afterOperand c cs

theorem text_ne_nil (afterOperand : Bool) (c : Char) (cs : List Char) :
    (scan afterOperand c cs).1.text ≠ [] := by
  unfold scan
  split
  · simp [text]
  split
  · unfold scanNumber
    split
    · split <;> simp [text]
    · simp [text]
  · fun_cases scanMark afterOperand c cs <;> try simp [text]
    cases afterOperand <;> simp

theorem length_scan_le (afterOperand : Bool) (c : Char) (cs : List Char) :
    (scan afterOperand c cs).2.length ≤ cs.length := by
  have h := congrArg List.length (text_scan afterOperand c cs)
  have := List.length_pos_iff.2 (text_ne_nil afterOperand c cs)
  simp only [List.length_append, List.length_cons] at h
  omega

end Token
end AwaitScript
