import AwaitScript.Proofs.JsonText
import AwaitScript.Proofs.SourceShape
import AwaitScript.Proofs.StatementBoundary

/-! Tokens written out with a blank before each of them. The blank is a line feed before a parenthesis
that opens no call, and the parser accepts the other ones only after an operand; so whatever tokens it
accepts, their text is cut into the same tokens again. -/
namespace AwaitScript

namespace Literal
open Grammar

theorem ne_of_value? {c : Char} (h : (Hexadecimal.value? c).isSome) : c ≠ '"' ∧ c ≠ '\n' ∧ c ≠ '\\' := by
  refine ⟨?_, ?_, ?_⟩
  all_goals
    rintro rfl
    cases h

theorem isStringTail_digits {a b c d : Char} {unit : Fin 0x10000} (h : unit? a b c d = some unit)
    (w : List Char) : IsStringTail ('\\' :: 'u' :: a :: b :: c :: d :: w) ↔ IsStringTail w := by
  have hdigit {x : Char} (hx : x ∈ [a, b, c, d]) (u : List Char) : IsStringTail (x :: u) ↔ IsStringTail u := by
    obtain ⟨hq, hl, hs⟩ := ne_of_value? (value?_of_unit? h x hx)
    exact isStringTail_cons hq hl hs u
  rw [isStringTail_escape (by decide), hdigit (by simp), hdigit (by simp), hdigit (by simp), hdigit (by simp)]

theorem isStringTail_unit {n : Nat} (hn : n < 0x10000) (w : List Char) :
    IsStringTail ('\\' :: 'u' :: Hexadecimal.write 4 n ++ w) ↔ IsStringTail w := by
  obtain ⟨a, b, c, d, hw, hu⟩ := unit?_write hn
  rw [hw]
  exact isStringTail_digits hu w

theorem isStringTail_writeChar (plain : Style) (c : Char) (w : List Char) :
    IsStringTail (writeChar plain c ++ w) ↔ IsStringTail w := by
  unfold writeChar
  split
  case h_8 hq hb _ _ hl _ _ =>
    split
    · exact isStringTail_cons hq hl hb w
    · have hc := toNat_range c
      unfold units
      split
      · next h => rw [List.flatMap_singleton, isStringTail_unit h]
      · rw [List.flatMap_cons, List.append_assoc, isStringTail_unit (by omega), List.flatMap_singleton,
          isStringTail_unit (by omega)]
  all_goals exact isStringTail_escape (by decide) w

theorem isString_write (plain : Style) (text : List Char) : IsString (write plain text) := by
  rw [write, List.cons_append, isString_cons]
  induction text with
  | nil => exact (isStringTail_quote []).2 rfl
  | cons c text ih => rwa [List.flatMap_cons, List.append_assoc, isStringTail_writeChar]

end Literal

namespace DecimalDigit

theorem value?_of_isDigit {c : Char} (h : c.isDigit) : value? c = some (c.toNat - 48) := by
  have hc : 48 ≤ c.toNat ∧ c.toNat < 48 + 10 := by
    simp only [Char.isDigit, Bool.and_eq_true, decide_eq_true_eq, ge_iff_le, UInt32.le_iff_toNat_le] at h
    exact ⟨h.1, Nat.lt_of_le_of_lt h.2 (by decide)⟩
  simp [value?, zeros, hc]

theorem number_eq {digits : List Char} (h : ∀ c ∈ digits, c.isDigit) :
    number digits = Json.number digits := by
  unfold number Json.number
  refine List.foldl_ext _ _ _ fun n c hc => ?_
  rw [value?_of_isDigit (h c hc), Option.getD_some]

end DecimalDigit

namespace Token

def IsSpelled : Token → Prop
  | word text => IsName text
  | int digits => Grammar.IsDigits digits.toList
  | float whole fraction => Grammar.IsDigits whole.toList ∧ Grammar.IsDigits fraction.toList
  | string text => Grammar.IsString text.toList
  | stray _ => False
  | _ => True

/-- Whether the token would take in some of the text that follows it. -/
def goesOn : Token → List Char → Bool
  | word _, c :: _ => isWordPart c
  | int _, '.' :: d :: _ => DecimalDigit.isDigit d
  | int _, c :: _ | float _ _, c :: _ => DecimalDigit.isDigit c
  | equals, c :: _ => c = '>'
  | _, _ => false

/-- No call continues on a new line. -/
def separator (t : Token) : Char := if t = openParen then '\n' else ' '

def spell (tokens : List Token) : List Char := tokens.flatMap fun t => t.separator :: t.text

theorem isBlank_separator (t : Token) : isBlank t.separator := by
  unfold separator
  split <;> rfl

def Ends (rest : List Char) : Prop := ∀ c ∈ rest.head?, isBlank c

theorem ends_nil : Ends [] := nofun

theorem ends_spell (tokens : List Token) : Ends (spell tokens) := by
  cases tokens with
  | nil => exact ends_nil
  | cons t tokens =>
    intro c hc
    cases hc
    exact isBlank_separator t

theorem Ends.not {rest : List Char} (h : Ends rest) {p : Char → Bool}
    (hp : [' ', '\t', '\x0c', '\r', '\n'].all fun c => !p c) : ∀ c ∈ rest.head?, ¬ p c := by
  intro c hc
  have hb := h c hc
  simp only [isBlank, Bool.or_eq_true, decide_eq_true_eq, or_assoc] at hb
  have := List.all_eq_true.1 hp c (by simpa using hb)
  simpa using this

theorem Ends.not_goesOn {rest : List Char} (h : Ends rest) (t : Token) : t.goesOn rest = false := by
  cases rest with
  | nil => cases t <;> rfl
  | cons c rest =>
    have hword : isWordPart c = false := by simpa using h.not (p := isWordPart) (by decide) c rfl
    have hdigit : DecimalDigit.isDigit c = false := by
      simpa using h.not (p := DecimalDigit.isDigit) (by decide) c rfl
    have hpoint : c ≠ '.' := by simpa using h.not (p := (· = '.')) (by decide) c rfl
    have harrow : c ≠ '>' := by simpa using h.not (p := (· = '>')) (by decide) c rfl
    cases t <;> simp [goesOn, hword, hdigit, hpoint, harrow]

section

variable {rest : List Char}

theorem scan_word (afterOperand : Bool) {text : String} (h : IsName text)
    (hr : (word text).goesOn rest = false) :
    ∃ c cs, text.toList = c :: cs ∧ isBlank c = false ∧
      scan afterOperand c (cs ++ rest) = (word text, rest) := by
  obtain ⟨c, cs, htext, hc, hcs⟩ := h
  have hstop : ∀ x ∈ rest.head?, ¬ isWordPart x := by
    cases rest with
    | nil => exact nofun
    | cons x rest => simpa [goesOn] using hr
  obtain ⟨ht, hd⟩ := Json.takeWhile_stop hcs hstop
  refine ⟨c, cs, htext, ?_, ?_⟩
  · have := Grammar.isWordStart_range hc
    by_contra hb
    have := Grammar.isBlank_range (by simpa using hb)
    omega
  · rw [scan, if_pos hc, ht, hd, ← htext, String.ofList_toList]

theorem scan_digit (afterOperand : Bool) {c : Char} (hc : DecimalDigit.isDigit c) (cs : List Char) :
    isBlank c = false ∧ scan afterOperand c cs = scanNumber c cs := by
  refine ⟨?_, ?_⟩
  · have := Grammar.isDigit_range hc
    by_contra hb
    have := Grammar.isBlank_range (by simpa using hb)
    omega
  · have hw : ¬ isWordStart c := fun hw => Grammar.not_isDigit_of_isWordStart hw hc
    rw [scan, if_neg hw, if_pos hc]

theorem scan_int (afterOperand : Bool) {digits : String} (h : Grammar.IsDigits digits.toList)
    (hr : (int digits).goesOn rest = false) :
    ∃ c cs, digits.toList = c :: cs ∧ isBlank c = false ∧
      scan afterOperand c (cs ++ rest) = (int digits, rest) := by
  obtain ⟨c, cs, hdigits, hc⟩ := Grammar.isDigits_head h
  have hcs : ∀ x ∈ cs, DecimalDigit.isDigit x := fun x hx => h.2 x (by simp [hdigits, hx])
  have hstop : ∀ x ∈ rest.head?, ¬ DecimalDigit.isDigit x := by
    intro x hx
    cases rest with
    | nil => cases hx
    | cons y rest =>
      cases hx
      by_cases hp : x = '.'
      · rw [hp]
        decide
      · simpa [goesOn, hp] using hr
  obtain ⟨ht, hd⟩ := Json.takeWhile_stop hcs hstop
  obtain ⟨hb, hscan⟩ := scan_digit afterOperand hc (cs ++ rest)
  refine ⟨c, cs, hdigits, hb, ?_⟩
  rw [hscan, scanNumber, ht, hd, ← hdigits, String.ofList_toList]
  split
  · next d tail => exact if_neg (by simpa [goesOn] using hr)
  · rfl

theorem scan_float (afterOperand : Bool) {whole fraction : String} (hw : Grammar.IsDigits whole.toList)
    (hf : Grammar.IsDigits fraction.toList) (hr : (float whole fraction).goesOn rest = false) :
    ∃ c cs, (float whole fraction).text = c :: cs ∧ isBlank c = false ∧
      scan afterOperand c (cs ++ rest) = (float whole fraction, rest) := by
  obtain ⟨c, cs, hwhole, hc⟩ := Grammar.isDigits_head hw
  obtain ⟨d, ds, hfraction, hd⟩ := Grammar.isDigits_head hf
  have hcs : ∀ x ∈ cs, DecimalDigit.isDigit x := fun x hx => hw.2 x (by simp [hwhole, hx])
  have hds : ∀ x ∈ ds, DecimalDigit.isDigit x := fun x hx => hf.2 x (by simp [hfraction, hx])
  have hstop : ∀ x ∈ rest.head?, ¬ DecimalDigit.isDigit x := by
    cases rest with
    | nil => exact nofun
    | cons x rest => simpa [goesOn] using hr
  have hpoint : ∀ x ∈ ('.' :: d :: ds ++ rest).head?, ¬ DecimalDigit.isDigit x := by
    intro x hx
    cases hx
    decide
  obtain ⟨ht, hdrop⟩ := Json.takeWhile_stop hcs hpoint
  obtain ⟨ht', hdrop'⟩ := Json.takeWhile_stop hds hstop
  obtain ⟨hb, hscan⟩ := scan_digit afterOperand hc (cs ++ ('.' :: d :: ds ++ rest))
  refine ⟨c, cs ++ '.' :: d :: ds, by simp [text, hwhole, hfraction], hb, ?_⟩
  rw [List.append_assoc, hscan, scanNumber, ht, hdrop, List.cons_append, List.cons_append]
  simp only [hd, if_true, ht', hdrop', ← hwhole, ← hfraction, String.ofList_toList]

theorem scan_string (afterOperand : Bool) {text : String} (h : Grammar.IsString text.toList) :
    ∃ c cs, text.toList = c :: cs ∧ isBlank c = false ∧
      scan afterOperand c (cs ++ rest) = (string text, rest) := by
  obtain ⟨cs, htext⟩ : ∃ cs, text.toList = '"' :: cs := by
    obtain ⟨body, hbody, -⟩ := h
    exact ⟨_, hbody⟩
  rw [htext, Grammar.isString_cons] at h
  have hscan : scanString (cs ++ rest) = some (cs, rest) := Grammar.scanString_iff.2 ⟨h, rfl⟩
  refine ⟨'"', cs, htext, by decide, ?_⟩
  rw [scan, if_neg (by decide), if_neg (by decide), scanMark, hscan]
  dsimp only
  rw [← htext, String.ofList_toList]

/-- Before text that it does not take in, a token is cut as it was written. Which parenthesis it is
depends on the line. -/
theorem scan_spelled {afterOperand : Bool} {t : Token} (ht : t.IsSpelled) (hr : t.goesOn rest = false)
    (hcall : t = callParen → afterOperand = true) (hopen : t = openParen → afterOperand = false) :
    ∃ c cs, t.text = c :: cs ∧ isBlank c = false ∧ scan afterOperand c (cs ++ rest) = (t, rest) := by
  cases t with
  | word text => exact scan_word afterOperand ht hr
  | int digits => exact scan_int afterOperand ht hr
  | float whole fraction => exact scan_float afterOperand ht.1 ht.2 hr
  | string text => exact scan_string afterOperand ht
  | openParen =>
    obtain rfl := hopen rfl
    exact ⟨'(', [], rfl, rfl, rfl⟩
  | callParen =>
    obtain rfl := hcall rfl
    exact ⟨'(', [], rfl, rfl, rfl⟩
  | equals =>
    refine ⟨'=', [], rfl, rfl, ?_⟩
    rw [List.nil_append, scan, if_neg (by decide), if_neg (by decide), scanMark]
    rintro tail rfl
    cases hr
  | stray => exact ht.elim
  | _ => exact ⟨_, _, rfl, rfl, rfl⟩

end

end Token

namespace Surface.State

def HasOperand (s : State) : Prop := ∃ e, s.mode = .operator e

section

variable {s s' : State} {frames : List Frame} {statements : List Statement} {t : Token}

theorem endsOperand_of_beginOperand (h : beginOperand frames statements t = .ok s')
    (hs : s'.HasOperand) : t.endsOperand := by
  cases t with
  | word | int | float | string => rfl
  | openParen | openBrace | openBracket =>
    cases h
    exact absurd hs (by simp [HasOperand])
  | _ => cases h

theorem endsOperand_of_beginStatement (h : beginStatement frames statements t = .ok s')
    (hs : s'.HasOperand) : t.endsOperand := by
  unfold beginStatement at h
  split at h
  · rfl
  · rfl
  · exact endsOperand_of_beginOperand h hs

theorem endsOperand_of_beginItem (h : beginItem frames statements t = .ok s')
    (hs : s'.HasOperand) : t.endsOperand := by
  unfold beginItem at h
  split at h
  · rfl
  · rfl
  · exact endsOperand_of_beginOperand h hs

theorem endsOperand_of_endExpression {e : Expression} (h : endExpression e frames statements t = .ok s')
    (hs : s'.HasOperand) : t.endsOperand := by
  cases frames with
  | nil =>
    have h' : beginStatement [] (.expression e :: statements) t = .ok s' := h
    exact endsOperand_of_beginStatement h' hs
  | cons frame frames =>
    cases frame with
    | body parameters outer =>
      have h' : beginStatement (.body parameters outer :: frames) (.expression e :: statements) t =
          .ok s' := h
      exact endsOperand_of_beginStatement h' hs
    | _ =>
      cases t with
      | word | int | float | string | closeParen | closeBrace | closeBracket => rfl
      | _ => cases h <;> exact absurd hs (by simp [HasOperand])

/-- Only a token that can end an operand leaves one behind. -/
theorem endsOperand_of_step (h : s.step t = .ok s') (hs : s'.HasOperand) : t.endsOperand := by
  obtain ⟨mode, frames, statements⟩ := s
  cases mode with
  | statement => exact endsOperand_of_beginStatement h hs
  | operand => exact endsOperand_of_beginItem h hs
  | operator e =>
    simp only [step, afterOperand] at h
    split at h
    · cases h
      exact absurd hs (by simp [HasOperand])
    · cases h
      exact absurd hs (by simp [HasOperand])
    · cases h
    · exact endsOperand_of_endExpression h hs
  | _ =>
    cases t with
    | word | int | float | string | closeParen | closeBrace | closeBracket => rfl
    | _ => cases h <;> exact absurd hs (by simp [HasOperand])

theorem hasOperand_of_callParen (h : s.step .callParen = .ok s') : s.HasOperand := by
  obtain ⟨mode, frames, statements⟩ := s
  cases mode with
  | operator e => exact ⟨e, rfl⟩
  | _ => cases h

end

end Surface.State

namespace Lexeme
open Surface Surface.State Token

/-- The parser reads the text of the tokens that it accepts as these tokens. -/
theorem tokens_spell {s s' : State} {tokens : List Token} (h : s.reads tokens = some s')
    (ht : ∀ t ∈ tokens, t.IsSpelled) {afterOperand : Bool} (ha : s.HasOperand → afterOperand = true)
    (offset : Nat) : (scanFrom afterOperand offset (spell tokens)).map token = tokens := by
  induction tokens generalizing s afterOperand offset with
  | nil => rw [spell, List.flatMap_nil, scanFrom, List.map_nil]
  | cons t tokens ih =>
    rw [State.reads] at h
    split at h
    · next s₁ hstep =>
      obtain ⟨ht, hts⟩ := List.forall_mem_cons.1 ht
      have hcall : t = .callParen → (afterOperand && t.separator ≠ '\n') = true := by
        rintro rfl
        rw [ha (hasOperand_of_callParen hstep)]
        rfl
      have hopen : t = .openParen → (afterOperand && t.separator ≠ '\n') = false := by
        rintro rfl
        exact Bool.and_false _
      obtain ⟨c, cs, htext, hc, hscan⟩ := scan_spelled ht ((ends_spell tokens).not_goesOn t) hcall hopen
      have hspell : spell (t :: tokens) = t.separator :: c :: (cs ++ spell tokens) := by
        simp [spell, htext]
      rw [hspell, scanFrom, if_pos (isBlank_separator t), scanFrom, if_neg (by simp [hc]), hscan,
        List.map_cons]
      exact congrArg _ (ih h hts (endsOperand_of_step hstep) _)
    · cases h

end Lexeme
end AwaitScript
