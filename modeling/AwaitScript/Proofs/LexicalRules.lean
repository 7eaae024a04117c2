import AwaitScript.Proofs.GrammarMachine
import AwaitScript.Source.Lexeme
import Mathlib

/-! The rules that cut a text into terminals: longest match, strings that end at their first quote that
no backslash takes, parentheses by the layout of the line, and keywords by what the grammar allows. -/
namespace AwaitScript.Grammar

/-! ### The rules -/

def IsWord (w : List Char) : Prop :=
  ∃ c v, w = c :: v ∧ Token.isWordStart c ∧ ∀ x ∈ v, Token.isWordPart x

def IsDigits (w : List Char) : Prop := w ≠ [] ∧ ∀ c ∈ w, DecimalDigit.isDigit c

def backslashes (u : List Char) : Nat := (u.rtakeWhile (· = '\\')).length

/-- A quote after `u` ends the string that starts with `u`. -/
def Closes (u : List Char) : Prop := Even (backslashes u)

def IsString (w : List Char) : Prop :=
  ∃ body, w = '"' :: (body ++ ['"']) ∧ '\n' ∉ body ∧ Closes body ∧
    ∀ u v, body = u ++ '"' :: v → ¬ Closes u

def Terminal.Spells : Terminal → List Char → Prop
  | .name text, w => IsWord w ∧ w = text.toList
  | .int digits, w => IsDigits w ∧ w = digits.toList
  | .float whole fraction, w =>
    IsDigits whole.toList ∧ IsDigits fraction.toList ∧ w = whole.toList ++ '.' :: fraction.toList
  | .string text, w => IsString w ∧ w = text.toList
  | .openParen, w | .callParen, w => w = ['(']
  | .closeParen, w => w = [')']
  | .openBrace, w => w = ['\x7b']
  | .closeBrace, w => w = ['\x7d']
  | .openBracket, w => w = ['[']
  | .closeBracket, w => w = [']']
  | .comma, w => w = [',']
  | .colon, w => w = [':']
  | .equals, w => w = ['=']
  | .arrow, w => w = ['=', '>']
  | .keyword k, w => w = k.text.toList

/-- No terminal has a longer text at the start of `text` than `w`, which is one of `t`. -/
def LongestMatch (text w : List Char) (t : Terminal) : Prop :=
  t.Spells w ∧ w <+: text ∧ ∀ t' w', Terminal.Spells t' w' → w' <+: text → w'.length ≤ w.length

def Terminal.endsExpression : Terminal → Bool
  | .name _ | .int _ | .float _ _ | .string _ | .closeParen | .closeBrace | .closeBracket
  | .keyword (.boolean _) => true
  | _ => false

/-- A parenthesis opens a call after an expression that ends on its line. -/
def CallPosition (before : List Terminal) (sameLine : Bool) : Prop :=
  sameLine = true ∧ ∃ t, before.getLast? = some t ∧ t.endsExpression

/-- Whether a text with several terminals stands for this one after the terminals `before`. -/
def Admissible (before : List Terminal) (sameLine : Bool) : Terminal → Prop
  | .name text => ∀ k : Keyword, k.text = text → ¬ CanFollow before (.keyword k)
  | .keyword k => CanFollow before (.keyword k)
  | .callParen => CallPosition before sameLine
  | .openParen => ¬ CallPosition before sameLine
  | _ => True

/-- The terminals of a text that comes after the terminals `before`. `sameLine` says that no line has
ended since the last of them. -/
inductive Lexes : List Terminal → Bool → List Char → List Terminal → Prop where
  | nil (before : List Terminal) (sameLine : Bool) : Lexes before sameLine [] []
  | blank {before : List Terminal} {sameLine : Bool} {c : Char} {cs : List Char}
      {ts : List Terminal} (hc : Token.isBlank c)
      (h : Lexes before (sameLine && c ≠ '\n') cs ts) : Lexes before sameLine (c :: cs) ts
  | terminal {before : List Terminal} {sameLine : Bool} {w rest : List Char} {t : Terminal}
      {ts : List Terminal} (hm : LongestMatch (w ++ rest) w t)
      (ha : Admissible before sameLine t) (h : Lexes (before ++ [t]) true rest ts) :
      Lexes before sameLine (w ++ rest) (t :: ts)

def Lexed (source : String) (ts : List Terminal) : Prop := Lexes [] true source.toList ts

/-! ### Strings -/

theorem backslashes_concat (u : List Char) (x : Char) :
    backslashes (u ++ [x]) = if x = '\\' then backslashes u + 1 else 0 := by
  unfold backslashes
  rw [List.rtakeWhile_concat]
  by_cases h : x = '\\' <;> simp [h]

theorem backslashes_cons (c : Char) (u : List Char) :
    backslashes (c :: u) =
      backslashes u + if c = '\\' ∧ ∀ x ∈ u, x = '\\' then 1 else 0 := by
  induction u using List.reverseRecOn with
  | nil =>
    have h := backslashes_concat [] c
    by_cases hc : c = '\\' <;> simp_all [backslashes]
  | append_singleton u x ih =>
    rw [← List.cons_append, backslashes_concat, backslashes_concat, ih]
    by_cases hx : x = '\\' <;> simp [hx, or_imp, forall_and, Nat.add_right_comm]

theorem closes_cons {c : Char} (hc : c ≠ '\\') (u : List Char) : Closes (c :: u) ↔ Closes u := by
  simp [Closes, backslashes_cons, hc]

/- A backslash takes the next character with it: the two count either not at all or both. -/
theorem closes_escape (c : Char) (u : List Char) : Closes ('\\' :: c :: u) ↔ Closes u := by
  unfold Closes
  rw [backslashes_cons, backslashes_cons]
  by_cases h : c = '\\' ∧ ∀ x ∈ u, x = '\\'
  · rw [if_pos h, if_pos ⟨rfl, List.forall_mem_cons.2 h⟩]
    simp [Nat.even_add_one]
  · rw [if_neg h, if_neg fun h' => h (List.forall_mem_cons.1 h'.2)]
    simp

theorem not_closes_backslash : ¬ Closes ['\\'] := by
  have h := backslashes_cons '\\' []
  simp_all [Closes, backslashes]

def IsStringTail (w : List Char) : Prop :=
  ∃ body, w = body ++ ['"'] ∧ '\n' ∉ body ∧ Closes body ∧ ∀ u v, body = u ++ '"' :: v → ¬ Closes u

theorem isString_cons {w : List Char} : IsString ('"' :: w) ↔ IsStringTail w := by
  simp [IsString, IsStringTail]

theorem closes_nil : Closes [] := by
  simp [Closes, backslashes]

theorem isStringTail_quote (w : List Char) : IsStringTail ('"' :: w) ↔ w = [] := by
  constructor
  · rintro ⟨body, hw, -, -, hf⟩
    cases body with
    | nil => simpa using hw
    | cons c body =>
      obtain ⟨rfl, -⟩ := List.cons.inj hw
      exact absurd closes_nil (hf [] body rfl)
  · rintro rfl
    exact ⟨[], rfl, nofun, closes_nil, by simp⟩

theorem isStringTail_cons {c : Char} (hq : c ≠ '"') (hn : c ≠ '\n') (hb : c ≠ '\\')
    (w : List Char) : IsStringTail (c :: w) ↔ IsStringTail w := by
  constructor
  · rintro ⟨body, hw, hl, hc, hf⟩
    cases body with
    | nil => exact absurd (List.cons.inj hw).1 hq
    | cons d body =>
      obtain ⟨rfl, rfl⟩ := List.cons.inj hw
      refine ⟨body, rfl, fun h => hl (by simp [h]), (closes_cons hb body).1 hc, ?_⟩
      rintro u v rfl h
      exact hf (c :: u) v rfl ((closes_cons hb u).2 h)
  · rintro ⟨body, rfl, hl, hc, hf⟩
    refine ⟨c :: body, rfl, by simp [hl, hn.symm], (closes_cons hb body).2 hc, ?_⟩
    intro u v h
    cases u with
    | nil => exact absurd (List.cons.inj h).1 hq
    | cons d u =>
      obtain ⟨rfl, rfl⟩ := List.cons.inj h
      rw [closes_cons hb]
      exact hf u v rfl

theorem isStringTail_escape {c : Char} (hn : c ≠ '\n') (w : List Char) :
    IsStringTail ('\\' :: c :: w) ↔ IsStringTail w := by
  constructor
  · rintro ⟨body, hw, hl, hc, hf⟩
    match body with
    | [] => simp at hw
    | [d] =>
      obtain ⟨rfl, -⟩ := List.cons.inj hw
      exact absurd hc not_closes_backslash
    | d :: e :: body =>
      obtain ⟨rfl, ht⟩ := List.cons.inj hw
      obtain ⟨rfl, rfl⟩ := List.cons.inj ht
      refine ⟨body, rfl, fun h => hl (by simp [h]), (closes_escape c body).1 hc, ?_⟩
      rintro u v rfl h
      exact hf ('\\' :: c :: u) v rfl ((closes_escape c u).2 h)
  · rintro ⟨body, rfl, hl, hc, hf⟩
    refine ⟨'\\' :: c :: body, rfl, by simp [hl, hn.symm], (closes_escape c body).2 hc, ?_⟩
    intro u v h
    match u with
    | [] => simp at h
    | [d] =>
      obtain ⟨rfl, -⟩ := List.cons.inj h
      exact not_closes_backslash
    | d :: e :: u =>
      obtain ⟨rfl, ht⟩ := List.cons.inj h
      obtain ⟨rfl, rfl⟩ := List.cons.inj ht
      rw [closes_escape]
      exact hf u v rfl

theorem not_isStringTail_nil : ¬ IsStringTail [] := by
  rintro ⟨body, hw, -⟩
  simp at hw

theorem not_isStringTail_backslash : ¬ IsStringTail ['\\'] := by
  rintro ⟨body, hw, -⟩
  cases body with
  | nil => simp at hw
  | cons c body => simp at hw

theorem not_isStringTail_newline (w : List Char) : ¬ IsStringTail ('\n' :: w) := by
  rintro ⟨body, hw, hl, -⟩
  cases body with
  | nil => simp at hw
  | cons c body =>
    obtain ⟨rfl, -⟩ := List.cons.inj hw
    simp at hl

theorem not_isStringTail_backslash_newline (w : List Char) : ¬ IsStringTail ('\\' :: '\n' :: w) := by
  rintro ⟨body, hw, hl, hc, -⟩
  match body with
  | [] => simp at hw
  | [c] => simp at hw
  | c :: d :: body =>
    obtain ⟨-, hw⟩ := List.cons.inj hw
    obtain ⟨rfl, -⟩ := List.cons.inj hw
    simp at hl

/- After a backslash a string goes on. -/
theorem isStringTail_backslash {w rest cs : List Char} (hw : IsStringTail w)
    (h : w ++ rest = '\\' :: cs) : ∃ d v, w = '\\' :: d :: v ∧ d :: (v ++ rest) = cs := by
  cases w with
  | nil => exact absurd hw not_isStringTail_nil
  | cons c w =>
    obtain ⟨rfl, ht⟩ := List.cons.inj h
    cases w with
    | nil => exact absurd hw not_isStringTail_backslash
    | cons d v => exact ⟨d, v, rfl, ht⟩

theorem scanString_iff {cs w rest : List Char} :
    Token.scanString cs = some (w, rest) ↔ IsStringTail w ∧ w ++ rest = cs := by
  fun_induction Token.scanString cs generalizing w rest with
  | case1 =>
    constructor
    · simp
    · rintro ⟨hw, h⟩
      obtain ⟨rfl, -⟩ := List.append_eq_nil_iff.1 h
      exact absurd hw not_isStringTail_nil
  | case2 tail =>
    constructor
    · rintro ⟨⟩
      exact ⟨(isStringTail_quote []).2 rfl, rfl⟩
    · rintro ⟨hw, h⟩
      cases w with
      | nil => exact absurd hw not_isStringTail_nil
      | cons c w =>
        obtain ⟨rfl, rfl⟩ := List.cons.inj h
        obtain rfl := (isStringTail_quote w).1 hw
        rfl
  | case3 tail =>
    constructor
    · simp
    · rintro ⟨hw, h⟩
      cases w with
      | nil => exact absurd hw not_isStringTail_nil
      | cons c w =>
        obtain ⟨rfl, -⟩ := List.cons.inj h
        exact absurd hw (not_isStringTail_newline w)
  | case4 tail =>
    constructor
    · simp
    · rintro ⟨hw, h⟩
      obtain ⟨d, v, rfl, hr⟩ := isStringTail_backslash hw h
      obtain ⟨rfl, -⟩ := List.cons.inj hr
      exact absurd hw (not_isStringTail_backslash_newline v)
  | case5 c tail hc ih =>
    have hn : c ≠ '\n' := fun h => hc h
    rw [Option.map_eq_some_iff]
    constructor
    · rintro ⟨⟨w', r⟩, hs, he⟩
      obtain ⟨rfl, rfl⟩ := Prod.mk.inj he
      obtain ⟨hw, rfl⟩ := ih.1 hs
      exact ⟨(isStringTail_escape hn w').2 hw, rfl⟩
    · rintro ⟨hw, h⟩
      obtain ⟨d, v, rfl, hr⟩ := isStringTail_backslash hw h
      obtain ⟨rfl, ht⟩ := List.cons.inj hr
      exact ⟨(v, rest), ih.2 ⟨(isStringTail_escape hn v).1 hw, ht⟩, rfl⟩
  | case6 c tail hq hn h₁ h₂ ih =>
    rw [Option.map_eq_some_iff]
    -- Only a text that ends in a backslash comes here with one.
    by_cases hb : c = '\\'
    · obtain rfl : tail = [] := by
        cases tail with
        | nil => rfl
        | cons d tail => exact (h₂ d tail hb rfl).elim
      subst hb
      constructor
      · simp [Token.scanString]
      · rintro ⟨hw, h⟩
        obtain ⟨rfl, -⟩ | ⟨rfl, -⟩ := List.append_eq_singleton_iff.1 h
        · exact absurd hw not_isStringTail_nil
        · exact absurd hw not_isStringTail_backslash
    constructor
    · rintro ⟨⟨w', r⟩, hs, he⟩
      obtain ⟨rfl, rfl⟩ := Prod.mk.inj he
      obtain ⟨hw, rfl⟩ := ih.1 hs
      exact ⟨(isStringTail_cons hq hn hb w').2 hw, rfl⟩
    · rintro ⟨hw, h⟩
      cases w with
      | nil => exact absurd hw not_isStringTail_nil
      | cons d w =>
        obtain ⟨rfl, ht⟩ := List.cons.inj h
        exact ⟨(w, rest), ih.2 ⟨(isStringTail_cons hq hn hb w).1 hw, ht⟩, rfl⟩

/-! ### Longest matches -/

def Terminal.token : Terminal → Token
  | .name text => .word text
  | .int digits => .int digits
  | .float whole fraction => .float whole fraction
  | .string text => .string text
  | .openParen => .openParen
  | .callParen => .callParen
  | .closeParen => .closeParen
  | .openBrace => .openBrace
  | .closeBrace => .closeBrace
  | .openBracket => .openBracket
  | .closeBracket => .closeBracket
  | .comma => .comma
  | .colon => .colon
  | .equals => .equals
  | .arrow => .arrow
  | .keyword k => .word k.text

def plain : Token → Token
  | .callParen => .openParen
  | token => token

def Terminal.starts : Terminal → Char → Bool
  | .name _, c | .keyword _, c => Token.isWordStart c
  | .int _, c | .float _ _, c => DecimalDigit.isDigit c
  | .string _, c => c = '"'
  | .openParen, c | .callParen, c => c = '('
  | .closeParen, c => c = ')'
  | .openBrace, c => c = '\x7b'
  | .closeBrace, c => c = '\x7d'
  | .openBracket, c => c = '['
  | .closeBracket, c => c = ']'
  | .comma, c => c = ','
  | .colon, c => c = ':'
  | .equals, c | .arrow, c => c = '='

theorem isDigits_head {w : List Char} (h : IsDigits w) :
    ∃ c v, w = c :: v ∧ DecimalDigit.isDigit c := by
  obtain ⟨hn, hd⟩ := h
  cases w with
  | nil => contradiction
  | cons c v => exact ⟨c, v, rfl, hd c (by simp)⟩

theorem keyword_isWord (k : Keyword) : IsWord k.text.toList := by
  cases k with
  | imports => exact ⟨'i', "mport".toList, rfl, by decide, List.all_eq_true.1 (by decide)⟩
  | origin => exact ⟨'f', "rom".toList, rfl, by decide, List.all_eq_true.1 (by decide)⟩
  | boolean value =>
    cases value with
    | true => exact ⟨'t', "rue".toList, rfl, by decide, List.all_eq_true.1 (by decide)⟩
    | false => exact ⟨'f', "alse".toList, rfl, by decide, List.all_eq_true.1 (by decide)⟩

theorem spells_head {t : Terminal} {w : List Char} (h : t.Spells w) :
    ∃ c v, w = c :: v ∧ t.starts c := by
  cases t with
  | name text =>
    obtain ⟨⟨c, v, rfl, hc, -⟩, -⟩ := h
    exact ⟨c, v, rfl, hc⟩
  | int digits => exact isDigits_head h.1
  | float whole fraction =>
    obtain ⟨hw, -, rfl⟩ := h
    obtain ⟨c, v, hv, hc⟩ := isDigits_head hw
    exact ⟨c, v ++ '.' :: fraction.toList, by simp [hv], hc⟩
  | string text =>
    obtain ⟨⟨body, rfl, -⟩, -⟩ := h
    exact ⟨'"', body ++ ['"'], rfl, rfl⟩
  | keyword k =>
    obtain ⟨c, v, hv, hc, -⟩ := keyword_isWord k
    exact ⟨c, v, h.trans hv, hc⟩
  | _ =>
    cases h
    exact ⟨_, _, rfl, rfl⟩

theorem isDigit_range {c : Char} (h : DecimalDigit.isDigit c) :
    48 ≤ c.toNat ∧ c.toNat < 58 ∨ 0x660 ≤ c.toNat := by
  unfold DecimalDigit.isDigit DecimalDigit.value? at h
  rw [Option.isSome_map, List.find?_isSome] at h
  obtain ⟨z, hz, hc⟩ := h
  have hr : ∀ z ∈ DecimalDigit.zeros, z = 48 ∨ 0x660 ≤ z := by decide
  have := hr z hz
  simp only [Bool.and_eq_true, decide_eq_true_eq] at hc
  omega

theorem isWordStart_range {c : Char} (h : Token.isWordStart c) :
    c.toNat = 36 ∨ 65 ≤ c.toNat ∧ c.toNat < 128 := by
  simp only [Token.isWordStart, Char.isAlpha, Char.isUpper, Char.isLower, Bool.or_eq_true,
    Bool.and_eq_true, decide_eq_true_eq, ge_iff_le, UInt32.le_iff_toNat_le] at h
  obtain ((⟨h₁, h₂⟩ | ⟨h₁, h₂⟩) | rfl) | rfl := h
  · right
    exact ⟨h₁, Nat.lt_of_le_of_lt h₂ (by decide)⟩
  · right
    exact ⟨Nat.le_trans (by decide) h₁, Nat.lt_of_le_of_lt h₂ (by decide)⟩
  · decide
  · decide

theorem not_isDigit_of_isWordStart {c : Char} (h : Token.isWordStart c) :
    ¬ DecimalDigit.isDigit c := by
  intro hd
  have := isDigit_range hd
  have := isWordStart_range h
  omega

theorem spells_of_isWordStart {t : Terminal} {c : Char} {v : List Char} (h : t.Spells (c :: v))
    (hc : Token.isWordStart c) :
    IsWord (c :: v) ∧ t.token = .word (String.ofList (c :: v)) := by
  obtain ⟨d, u, hw, hs⟩ := spells_head h
  obtain ⟨rfl, rfl⟩ := List.cons.inj hw
  cases t with
  | name text =>
    obtain ⟨hi, ht⟩ := h
    exact ⟨hi, by rw [ht, String.ofList_toList]; rfl⟩
  | keyword k =>
    have ht : c :: v = k.text.toList := h
    rw [ht, String.ofList_toList]
    exact ⟨keyword_isWord k, rfl⟩
  | int digits => exact absurd hs (not_isDigit_of_isWordStart hc)
  | float whole fraction => exact absurd hs (not_isDigit_of_isWordStart hc)
  | _ =>
    obtain rfl := of_decide_eq_true hs
    exact absurd hc (by decide)

theorem spells_of_isDigit {t : Terminal} {c : Char} {v : List Char} (h : t.Spells (c :: v))
    (hc : DecimalDigit.isDigit c) :
    IsDigits (c :: v) ∧ t.token = .int (String.ofList (c :: v)) ∨
      ∃ a b, IsDigits a ∧ IsDigits b ∧ c :: v = a ++ '.' :: b ∧
        t.token = .float (String.ofList a) (String.ofList b) := by
  obtain ⟨d, u, hw, hs⟩ := spells_head h
  obtain ⟨rfl, rfl⟩ := List.cons.inj hw
  cases t with
  | int digits =>
    obtain ⟨hi, ht⟩ := h
    exact .inl ⟨hi, by rw [ht, String.ofList_toList]; rfl⟩
  | float whole fraction =>
    obtain ⟨ha, hb, ht⟩ := h
    exact .inr ⟨_, _, ha, hb, ht, by simp [Terminal.token]⟩
  | name text => exact absurd hc (not_isDigit_of_isWordStart hs)
  | keyword k => exact absurd hc (not_isDigit_of_isWordStart hs)
  | _ =>
    obtain rfl := of_decide_eq_true hs
    exact absurd hc (by decide)

theorem spells_quote {t : Terminal} {v : List Char} (h : t.Spells ('"' :: v)) :
    IsString ('"' :: v) ∧ t.token = .string (String.ofList ('"' :: v)) := by
  obtain ⟨d, u, hw, hs⟩ := spells_head h
  obtain ⟨rfl, rfl⟩ := List.cons.inj hw
  cases t with
  | string text =>
    obtain ⟨hi, ht⟩ := h
    exact ⟨hi, by rw [ht, String.ofList_toList]; rfl⟩
  | name text => exact absurd hs (by decide : ¬ Token.isWordStart '"')
  | keyword k => exact absurd hs (by decide : ¬ Token.isWordStart '"')
  | int digits => exact absurd hs (by decide : ¬ DecimalDigit.isDigit '"')
  | float whole fraction => exact absurd hs (by decide : ¬ DecimalDigit.isDigit '"')
  | _ => exact absurd hs (by decide)

def marks : List Terminal :=
  [.openParen, .callParen, .closeParen, .openBrace, .closeBrace, .openBracket, .closeBracket, .comma,
    .colon, .equals, .arrow]

theorem spells_mark {t : Terminal} {c : Char} {v : List Char} (h : t.Spells (c :: v))
    (hw : ¬ Token.isWordStart c) (hd : ¬ DecimalDigit.isDigit c) (hq : c ≠ '"') :
    t ∈ marks ∧ c :: v = t.token.text := by
  obtain ⟨d, u, he, hs⟩ := spells_head h
  obtain ⟨rfl, rfl⟩ := List.cons.inj he
  cases t with
  | string text => exact absurd (of_decide_eq_true hs) hq
  | name text => contradiction
  | keyword k => contradiction
  | int digits => contradiction
  | float whole fraction => contradiction
  | _ => exact ⟨by decide, h⟩

theorem spells_of_mem_marks {t : Terminal} (h : t ∈ marks) : t.Spells t.token.text := by
  cases t with
  | name | int | float | string | keyword => simp [marks] at h
  | _ => rfl

theorem mem_marks_of_plain {t m : Terminal} (hm : m ∈ marks) (h : plain t.token = plain m.token) :
    t ∈ marks ∧ t.token.text = m.token.text := by
  have hp (t : Token) : (plain t).text = t.text := by cases t <;> rfl
  constructor
  · cases t with
    | name | int | float | string | keyword =>
      have hn : ∀ m ∈ marks, plain m.token ∈ marks.map Terminal.token := by decide
      have := h ▸ hn m hm
      simp [marks, plain, Terminal.token] at this
    | _ => decide
  · rw [← hp t.token, h, hp]

theorem prefix_takeWhile {p : Char → Bool} {w text : List Char} (h : w <+: text)
    (hw : ∀ c ∈ w, p c) : w <+: text.takeWhile p := by
  obtain ⟨rest, rfl⟩ := h
  rw [List.takeWhile_append_of_pos hw]
  exact List.prefix_append _ _

theorem eq_of_prefix_of_length {u w text : List Char} (hu : u <+: text) (hw : w <+: text)
    (h : u.length = w.length) : u = w :=
  (List.prefix_of_prefix_length_le hu hw h.le).eq_of_length h

/-- The token that has the longest match at the start of a text. -/
def IsLongest (text : List Char) (token : Token) : Prop :=
  ∀ t w, LongestMatch text w t ↔ plain t.token = plain token ∧ w = token.text

theorem isLongest_of {text : List Char} {token : Token}
    (hp : token.text <+: text)
    (hl : ∀ t w, Terminal.Spells t w → w <+: text → w.length ≤ token.text.length)
    (hs : ∀ t : Terminal, t.Spells token.text ↔ plain t.token = plain token)
    (he : ∃ t : Terminal, plain t.token = plain token) : IsLongest text token := by
  intro t w
  constructor
  · rintro ⟨ht, hw, hm⟩
    obtain ⟨t', ht'⟩ := he
    have hle := hm t' token.text ((hs t').2 ht') hp
    obtain rfl := eq_of_prefix_of_length hw hp (Nat.le_antisymm (hl t w ht hw) hle)
    exact ⟨(hs t).1 ht, rfl⟩
  · rintro ⟨ht, rfl⟩
    exact ⟨(hs t).2 ht, hp, fun t' w' h' hp' => hl t' w' h' hp'⟩

theorem starts_of_spells {t : Terminal} {w cs : List Char} {c : Char} (h : t.Spells w)
    (hp : w <+: c :: cs) : t.starts c ∧ ∃ v, w = c :: v ∧ v <+: cs := by
  obtain ⟨d, v, rfl, hd⟩ := spells_head h
  obtain ⟨rfl, hv⟩ := List.cons_prefix_cons.1 hp
  exact ⟨hd, v, rfl, hv⟩

theorem plain_of_ne {a : Token} (h : a ≠ .callParen) : plain a = a := by
  unfold plain
  split
  · contradiction
  · rfl

theorem eq_of_plain {a b : Token} (h : plain a = plain b) (hn : b ≠ .openParen)
    (hc : b ≠ .callParen) : a = b := by
  rw [plain_of_ne hc] at h
  by_cases ha : a = .callParen
  · subst ha
    exact absurd h.symm hn
  · rw [← h, plain_of_ne ha]

theorem spells_of_token_word {t : Terminal} {text : String} (h : t.token = .word text)
    (hw : IsWord text.toList) : t.Spells text.toList := by
  cases t <;> cases h
  · exact ⟨hw, rfl⟩
  · rfl

theorem isLongest_word {c : Char} {cs : List Char} {text : String} (hc : Token.isWordStart c)
    (htext : text.toList = c :: cs.takeWhile Token.isWordPart) :
    IsLongest (c :: cs) (.word text) := by
  have hw : IsWord text.toList := ⟨c, _, htext, hc, fun x hx => List.mem_takeWhile_imp hx⟩
  refine isLongest_of ?_ ?_ ?_ ⟨.name text, rfl⟩
  · rw [Token.text, htext, List.cons_prefix_cons]
    exact ⟨rfl, List.takeWhile_prefix _⟩
  · intro t u hu hp
    obtain ⟨-, v, rfl, hv⟩ := starts_of_spells hu hp
    obtain ⟨⟨d, v', he, -, hv'⟩, -⟩ := spells_of_isWordStart hu hc
    obtain ⟨-, rfl⟩ := List.cons.inj he
    rw [Token.text, htext]
    exact Nat.succ_le_succ (prefix_takeWhile hv hv').length_le
  · intro t
    rw [Token.text]
    constructor
    · intro h
      rw [htext] at h
      rw [(spells_of_isWordStart h hc).2, ← htext, String.ofList_toList]
    · intro h
      have ht := eq_of_plain h Token.noConfusion Token.noConfusion
      exact spells_of_token_word ht hw

/- The digits before a point are all the digits there are. -/
theorem digits_point {a b text : List Char} (ha : ∀ c ∈ a, DecimalDigit.isDigit c)
    (h : a ++ '.' :: b <+: text) :
    text.takeWhile DecimalDigit.isDigit = a ∧ '.' :: b <+: text.dropWhile DecimalDigit.isDigit := by
  obtain ⟨rest, rfl⟩ := h
  have hp : ¬ DecimalDigit.isDigit '.' := by decide
  rw [List.append_assoc, List.takeWhile_append_of_pos ha, List.dropWhile_append_of_pos ha,
    List.cons_append, List.takeWhile_cons_of_neg hp, List.dropWhile_cons_of_neg hp]
  exact ⟨List.append_nil a, rest, rfl⟩

theorem digits_point_inj {a b a' b' : List Char} (ha : ∀ c ∈ a, DecimalDigit.isDigit c)
    (ha' : ∀ c ∈ a', DecimalDigit.isDigit c) (h : a ++ '.' :: b = a' ++ '.' :: b') :
    a = a' ∧ b = b' := by
  have h₁ := (digits_point ha (List.prefix_refl (a ++ '.' :: b))).1
  have h₂ := (digits_point ha' (List.prefix_refl (a' ++ '.' :: b'))).1
  rw [h, h₂] at h₁
  subst h₁
  simpa using h

theorem not_isDigits_point (a b : List Char) : ¬ IsDigits (a ++ '.' :: b) := by
  rintro ⟨-, h⟩
  exact absurd (h '.' (by simp)) (by decide)

/- A number is at most the digits at the start, or these with a point and the digits after it. -/
theorem spells_number_cases {t : Terminal} {c : Char} {cs w : List Char} (h : t.Spells w)
    (hc : DecimalDigit.isDigit c) (hp : w <+: c :: cs) :
    w <+: (c :: cs).takeWhile DecimalDigit.isDigit ∨
      ∃ b, IsDigits b ∧ w = (c :: cs).takeWhile DecimalDigit.isDigit ++ '.' :: b ∧
        '.' :: b <+: (c :: cs).dropWhile DecimalDigit.isDigit := by
  obtain ⟨-, v, rfl, -⟩ := starts_of_spells h hp
  obtain ⟨hd, -⟩ | ⟨a, b, ha, hb, he, -⟩ := spells_of_isDigit h hc
  · exact .inl (prefix_takeWhile hp hd.2)
  · rw [he] at hp
    obtain ⟨hta, hr⟩ := digits_point ha.2 hp
    exact .inr ⟨b, hb, by rw [he, hta], hr⟩

theorem isLongest_int {c : Char} {cs : List Char} {digits : String} (hc : DecimalDigit.isDigit c)
    (hd : digits.toList = (c :: cs).takeWhile DecimalDigit.isDigit)
    (hn : ∀ b, IsDigits b → ¬ '.' :: b <+: (c :: cs).dropWhile DecimalDigit.isDigit) :
    IsLongest (c :: cs) (.int digits) := by
  have hi : IsDigits digits.toList := by
    rw [hd]
    exact ⟨by simp [hc], fun x hx => List.mem_takeWhile_imp hx⟩
  refine isLongest_of ?_ ?_ ?_ ⟨.int digits, rfl⟩
  · rw [Token.text, hd]
    exact List.takeWhile_prefix _
  · intro t w h hp
    rw [Token.text, hd]
    obtain hw | ⟨b, hb, -, hr⟩ := spells_number_cases h hc hp
    · exact hw.length_le
    · exact absurd hr (hn b hb)
  · intro t
    rw [Token.text]
    constructor
    · intro h
      have ht := hd
      rw [List.takeWhile_cons_of_pos hc] at ht
      rw [ht] at h hi
      obtain ⟨-, he⟩ | ⟨a, b, -, -, he, -⟩ := spells_of_isDigit h hc
      · rw [he, ← ht, String.ofList_toList]
      · rw [he] at hi
        exact absurd hi (not_isDigits_point a b)
    · intro h
      have ht := eq_of_plain h Token.noConfusion Token.noConfusion
      cases t <;> cases ht
      exact ⟨hi, rfl⟩

theorem isLongest_float {c : Char} {cs rest : List Char} {whole fraction : String}
    (hc : DecimalDigit.isDigit c)
    (hw : whole.toList = (c :: cs).takeWhile DecimalDigit.isDigit)
    (hr : (c :: cs).dropWhile DecimalDigit.isDigit = '.' :: rest)
    (hf : fraction.toList = rest.takeWhile DecimalDigit.isDigit) (hn : fraction.toList ≠ []) :
    IsLongest (c :: cs) (.float whole fraction) := by
  have ha : IsDigits whole.toList := by
    rw [hw]
    exact ⟨by simp [hc], fun x hx => List.mem_takeWhile_imp hx⟩
  have hb : IsDigits fraction.toList := ⟨hn, by
    rw [hf]
    exact fun x hx => List.mem_takeWhile_imp hx⟩
  have hs : (c :: cs) = whole.toList ++ '.' :: rest := by
    rw [hw, ← hr, List.takeWhile_append_dropWhile]
  have hp : whole.toList ++ '.' :: fraction.toList <+: c :: cs := by
    rw [hs, hf]
    exact (List.prefix_append_right_inj _).2
      (List.cons_prefix_cons.2 ⟨rfl, List.takeWhile_prefix _⟩)
  refine isLongest_of hp ?_ ?_ ⟨.float whole fraction, rfl⟩
  · intro t w h hp
    rw [Token.text]
    obtain hv | ⟨b, hb, rfl, hv⟩ := spells_number_cases h hc hp
    · have := hv.length_le
      rw [← hw] at this
      simp only [List.length_append, List.length_cons]
      omega
    · rw [hr, List.cons_prefix_cons] at hv
      have := (prefix_takeWhile hv.2 hb.2).length_le
      rw [← hf] at this
      rw [← hw]
      simp only [List.length_append, List.length_cons]
      omega
  · intro t
    rw [Token.text]
    constructor
    · intro h
      obtain ⟨d, u, hv, hd⟩ := isDigits_head ha
      have hvs : whole.toList ++ '.' :: fraction.toList = d :: (u ++ '.' :: fraction.toList) := by
        rw [hv]
        rfl
      rw [hvs] at h
      obtain ⟨hi, -⟩ | ⟨a, b, ha', -, he, ht⟩ := spells_of_isDigit h hd
      · rw [← hvs] at hi
        exact absurd hi (not_isDigits_point _ _)
      · rw [← hvs] at he
        obtain ⟨rfl, rfl⟩ := digits_point_inj ha.2 ha'.2 he
        rw [ht, String.ofList_toList, String.ofList_toList]
    · intro h
      have ht := eq_of_plain h Token.noConfusion Token.noConfusion
      cases t <;> cases ht
      exact ⟨ha, hb, rfl⟩

theorem isLongest_scanNumber {c : Char} (hc : DecimalDigit.isDigit c) (cs : List Char) :
    IsLongest (c :: cs) (Token.scanNumber c cs).1 := by
  have ht : (String.ofList (c :: cs.takeWhile DecimalDigit.isDigit)).toList =
      (c :: cs).takeWhile DecimalDigit.isDigit := by
    rw [String.toList_ofList, List.takeWhile_cons_of_pos hc]
  have hd : (c :: cs).dropWhile DecimalDigit.isDigit = cs.dropWhile DecimalDigit.isDigit :=
    List.dropWhile_cons_of_pos hc
  unfold Token.scanNumber
  split
  · next d rest he =>
    rw [he] at hd
    split
    · next hf =>
      refine isLongest_float hc ht hd ?_ ?_
      · rw [String.toList_ofList, List.takeWhile_cons_of_pos hf]
      · simp
    · next hf =>
      refine isLongest_int hc ht fun b hb hp => ?_
      rw [hd, List.cons_prefix_cons] at hp
      obtain ⟨x, v, rfl, hx⟩ := isDigits_head hb
      exact hf ((List.cons_prefix_cons.1 hp.2).1 ▸ hx)
  · next hn =>
    refine isLongest_int hc ht fun b hb hp => ?_
    rw [hd] at hp
    obtain ⟨x, v, rfl, hx⟩ := isDigits_head hb
    obtain ⟨rest, hr⟩ := hp
    exact hn x (v ++ rest) hr.symm

theorem isLongest_string {cs body rest : List Char} {text : String}
    (h : Token.scanString cs = some (body, rest)) (ht : text.toList = '"' :: body) :
    IsLongest ('"' :: cs) (.string text) := by
  obtain ⟨hb, rfl⟩ := scanString_iff.1 h
  have hs : IsString text.toList := by
    rw [ht]
    exact isString_cons.2 hb
  refine isLongest_of ?_ ?_ ?_ ⟨.string text, rfl⟩
  · rw [Token.text, ht, List.cons_prefix_cons]
    exact ⟨rfl, List.prefix_append _ _⟩
  · intro t w hw hp
    obtain ⟨-, v, rfl, rest', hv⟩ := starts_of_spells hw hp
    have hs' := scanString_iff.2 ⟨isString_cons.1 (spells_quote hw).1, hv⟩
    rw [h] at hs'
    cases hs'
    rw [Token.text, ht]
  · intro t
    rw [Token.text]
    constructor
    · intro hw
      rw [ht] at hw
      rw [(spells_quote hw).2, ← ht, String.ofList_toList]
    · intro hp
      have he := eq_of_plain hp Token.noConfusion Token.noConfusion
      cases t <;> cases he
      exact ⟨hs, rfl⟩

theorem isLongest_mark {c : Char} {cs : List Char} {m : Terminal} (hm : m ∈ marks)
    (hw : ¬ Token.isWordStart c) (hd : ¬ DecimalDigit.isDigit c) (hq : c ≠ '"')
    (hp : m.token.text <+: c :: cs)
    (hl : ∀ t ∈ marks, t.starts c → t.token.text <+: c :: cs →
      t.token.text.length ≤ m.token.text.length) :
    IsLongest (c :: cs) m.token := by
  refine isLongest_of hp ?_ ?_ ⟨m, rfl⟩
  · intro t w h hpw
    obtain ⟨hs, v, rfl, -⟩ := starts_of_spells h hpw
    obtain ⟨ht, he⟩ := spells_mark h hw hd hq
    rw [he] at hpw ⊢
    exact hl t ht hs hpw
  · intro t
    constructor
    · intro h
      obtain ⟨-, v, hv, -⟩ := starts_of_spells h hp
      rw [hv] at h
      obtain ⟨ht, he⟩ := spells_mark h hw hd hq
      have hu : ∀ t ∈ marks, ∀ m ∈ marks, t.token.text = m.token.text →
          plain t.token = plain m.token := by decide
      exact hu t ht m hm (he.symm.trans hv.symm)
    · intro h
      obtain ⟨ht, he⟩ := mem_marks_of_plain hm h
      exact he ▸ spells_of_mem_marks ht

/- Apart from `=`, which may start an arrow, no mark is the start of another one. -/
theorem isLongest_single {c : Char} {m : Terminal} (cs : List Char) (hm : m ∈ marks)
    (hw : ¬ Token.isWordStart c) (hd : ¬ DecimalDigit.isDigit c) (hq : c ≠ '"')
    (ht : m.token.text = [c]) (hl : ∀ t ∈ marks, t.starts c → t.token.text.length ≤ 1) :
    IsLongest (c :: cs) m.token := by
  refine isLongest_mark hm hw hd hq ?_ ?_
  · rw [ht, List.cons_prefix_cons]
    exact ⟨rfl, List.nil_prefix⟩
  · intro t h hs _
    rw [ht]
    exact hl t h hs

theorem not_longestMatch_quote {cs w : List Char} {t : Terminal} (h : Token.scanString cs = none) :
    ¬ LongestMatch ('"' :: cs) w t := by
  rintro ⟨hw, hp, -⟩
  obtain ⟨-, v, rfl, rest, hv⟩ := starts_of_spells hw hp
  have hs := scanString_iff.2 ⟨isString_cons.1 (spells_quote hw).1, hv⟩
  rw [h] at hs
  cases hs

theorem isLongest_stray {text : List Char} {c : Char} (h : ∀ t w, ¬ LongestMatch text w t) :
    IsLongest text (.stray c) := by
  intro t w
  refine ⟨fun hm => absurd hm (h t w), ?_⟩
  rintro ⟨ht, -⟩
  cases t <;> cases ht

theorem isLongest_scanMark {c : Char} (cs : List Char) (afterOperand : Bool)
    (hw : ¬ Token.isWordStart c) (hd : ¬ DecimalDigit.isDigit c) :
    IsLongest (c :: cs) (Token.scanMark afterOperand c cs).1 := by
  fun_cases Token.scanMark afterOperand c cs
  case case1 =>
    cases afterOperand with
    | true => exact isLongest_single (m := .callParen) cs (by decide) hw hd (by decide) rfl (by decide)
    | false => exact isLongest_single (m := .openParen) cs (by decide) hw hd (by decide) rfl (by decide)
  case case2 => exact isLongest_single (m := .closeParen) cs (by decide) hw hd (by decide) rfl (by decide)
  case case3 => exact isLongest_single (m := .openBrace) cs (by decide) hw hd (by decide) rfl (by decide)
  case case4 => exact isLongest_single (m := .closeBrace) cs (by decide) hw hd (by decide) rfl (by decide)
  case case5 => exact isLongest_single (m := .openBracket) cs (by decide) hw hd (by decide) rfl (by decide)
  case case6 => exact isLongest_single (m := .closeBracket) cs (by decide) hw hd (by decide) rfl (by decide)
  case case7 => exact isLongest_single (m := .comma) cs (by decide) hw hd (by decide) rfl (by decide)
  case case8 => exact isLongest_single (m := .colon) cs (by decide) hw hd (by decide) rfl (by decide)
  case case9 cs =>
    refine isLongest_mark (m := .arrow) (by decide) hw hd (by decide) ⟨cs, rfl⟩ ?_
    have hl : ∀ t ∈ marks, t.token.text.length ≤ 2 := by decide
    exact fun t ht _ _ => hl t ht
  case case10 hn =>
    refine isLongest_mark (m := .equals) (by decide) hw hd (by decide) ⟨cs, rfl⟩ ?_
    intro t ht hs hp
    have hl : ∀ t ∈ marks, t.starts '=' → t = .equals ∨ t = .arrow := by decide
    obtain rfl | rfl := hl t ht hs
    · exact Nat.le_refl 1
    · obtain ⟨rest, hr⟩ := hp
      exact (hn rest (List.cons.inj hr).2.symm).elim
  case case11 body rest h => exact isLongest_string h String.toList_ofList
  case case12 h => exact isLongest_stray fun t w => not_longestMatch_quote h
  case case13 =>
    refine isLongest_stray fun t w hm => ?_
    obtain ⟨hs, hp, -⟩ := hm
    obtain ⟨hst, v, rfl, -⟩ := starts_of_spells hs hp
    cases t with
    | name | keyword => exact hw hst
    | int | float => exact hd hst
    | _ =>
      have hc := of_decide_eq_true hst
      contradiction

theorem isLongest_scan (afterOperand : Bool) (c : Char) (cs : List Char) :
    IsLongest (c :: cs) (Token.scan afterOperand c cs).1 := by
  unfold Token.scan
  split
  · next hw => exact isLongest_word hw String.toList_ofList
  · next hw =>
    split
    · next hd => exact isLongest_scanNumber hd cs
    · next hd => exact isLongest_scanMark cs afterOperand hw hd

/-! ### Cutting a text -/

theorem isBlank_range {c : Char} (h : Token.isBlank c) : c.toNat ≤ 32 := by
  simp only [Token.isBlank, Bool.or_eq_true, decide_eq_true_eq] at h
  obtain (((rfl | rfl) | rfl) | rfl) | rfl := h <;> decide

theorem not_starts_of_isBlank {c : Char} (h : Token.isBlank c) (t : Terminal) : ¬ t.starts c := by
  intro hs
  have hc := isBlank_range h
  cases t with
  | name | keyword =>
    have := isWordStart_range hs
    omega
  | int | float =>
    have := isDigit_range hs
    omega
  | _ =>
    obtain rfl := of_decide_eq_true hs
    exact absurd hc (by decide)

theorem lexes_nil_iff {before ts : List Terminal} {sameLine : Bool} :
    Lexes before sameLine [] ts ↔ ts = [] := by
  constructor
  · intro h
    generalize he : [] = text at h
    cases h with
    | nil => rfl
    | blank => cases he
    | terminal hm ha h =>
      obtain ⟨c, v, rfl, -⟩ := spells_head hm.1
      cases he
  · rintro rfl
    exact .nil before sameLine

theorem lexes_blank_iff {before ts : List Terminal} {sameLine : Bool} {c : Char} {cs : List Char}
    (hc : Token.isBlank c) :
    Lexes before sameLine (c :: cs) ts ↔ Lexes before (sameLine && c ≠ '\n') cs ts := by
  refine ⟨fun h => ?_, .blank hc⟩
  generalize htext : c :: cs = text at h
  cases h with
  | nil => cases htext
  | blank hd h =>
    cases htext
    exact h
  | terminal hm ha h =>
    obtain ⟨hs, hp, -⟩ := hm
    rw [← htext] at hp
    exact absurd (starts_of_spells hs hp).1 (not_starts_of_isBlank hc _)

theorem lexes_terminal_iff {before ts : List Terminal} {sameLine : Bool} {c : Char} {cs : List Char}
    (hc : ¬ Token.isBlank c) (afterOperand : Bool) :
    Lexes before sameLine (c :: cs) ts ↔
      ∃ t ts', ts = t :: ts' ∧ plain t.token = plain (Token.scan afterOperand c cs).1 ∧
        Admissible before sameLine t ∧
        Lexes (before ++ [t]) true (Token.scan afterOperand c cs).2 ts' := by
  have hl := isLongest_scan afterOperand c cs
  have htext := Token.text_scan afterOperand c cs
  constructor
  · intro h
    generalize he : c :: cs = text at h
    cases h with
    | nil => cases he
    | blank hd h =>
      cases he
      contradiction
    | terminal hm ha h =>
      rw [← he] at hm
      obtain ⟨ht, rfl⟩ := (hl _ _).1 hm
      rw [← htext] at he
      rw [List.append_cancel_left he]
      exact ⟨_, _, rfl, ht, ha, h⟩
  · rintro ⟨t, ts', rfl, ht, ha, h⟩
    have hm := (hl t _).2 ⟨ht, rfl⟩
    rw [← htext] at hm ⊢
    exact .terminal hm ha h

theorem Keyword.text_injective {k k' : Keyword} (h : k.text = k'.text) : k = k' := by
  revert h
  cases k with
  | boolean value => cases value <;> cases k' with
    | boolean value' => cases value' <;> decide
    | _ => decide
  | _ => cases k' with
    | boolean value' => cases value' <;> decide
    | _ => decide

theorem plain_token_eq_word {t : Terminal} {text : String} (h : plain t.token = .word text) :
    t = .name text ∨ ∃ k, t = .keyword k ∧ k.text = text := by
  cases t <;> cases h
  · exact .inl rfl
  · exact .inr ⟨_, rfl, rfl⟩

theorem plain_token_eq_openParen {t : Terminal} (h : plain t.token = .openParen) :
    t = .openParen ∨ t = .callParen := by
  cases t <;> cases h
  · exact .inl rfl
  · exact .inr rfl

/-- The terminals before and the layout single out one of the terminals with the same text. -/
theorem eq_of_admissible {before : List Terminal} {sameLine : Bool} {t t' : Terminal}
    (h : plain t.token = plain t'.token) (ha : Admissible before sameLine t)
    (ha' : Admissible before sameLine t') : t = t' := by
  cases t' with
  | name text =>
    obtain rfl | ⟨k, rfl, hk⟩ := plain_token_eq_word h
    · rfl
    · exact absurd ha (ha' k hk)
  | keyword k' =>
    obtain rfl | ⟨k, rfl, hk⟩ := plain_token_eq_word h
    · exact absurd ha' (ha k' rfl)
    · rw [Keyword.text_injective hk]
  | openParen =>
    obtain rfl | rfl := plain_token_eq_openParen h
    · rfl
    · exact absurd ha ha'
  | callParen =>
    obtain rfl | rfl := plain_token_eq_openParen h
    · exact absurd ha' ha
    · rfl
  | _ =>
    cases t <;> cases h
    rfl

/-- A text has at most one sequence of terminals. -/
theorem lexes_unique {before ts ts' : List Terminal} {sameLine : Bool} {text : List Char}
    (h : Lexes before sameLine text ts) (h' : Lexes before sameLine text ts') : ts = ts' := by
  induction hn : text.length using Nat.strongRecOn generalizing text before sameLine ts ts' with
  | ind n ih =>
    subst hn
    cases text with
    | nil => rw [lexes_nil_iff.1 h, lexes_nil_iff.1 h']
    | cons c cs =>
      by_cases hc : Token.isBlank c
      · rw [lexes_blank_iff hc] at h h'
        exact ih _ (by simp) h h' rfl
      · obtain ⟨t, us, rfl, ht, ha, hu⟩ := (lexes_terminal_iff hc false).1 h
        obtain ⟨t', us', rfl, ht', ha', hu'⟩ := (lexes_terminal_iff hc false).1 h'
        obtain rfl := eq_of_admissible (ht.trans ht'.symm) ha ha'
        have hlt : (Token.scan false c cs).2.length < (c :: cs).length :=
          Nat.lt_succ_of_le (Token.length_scan_le false c cs)
        rw [ih _ hlt hu hu' rfl]

end AwaitScript.Grammar
