import AwaitScript.Proofs.FirstDefect
import AwaitScript.Proofs.SpelledTokens

/-! Where string literals end. A token ends at its first quote that no backslash takes, while its value is read
character by character and escape by escape. Both come to the same quote, unless reading meets a fault
in front of it. -/
namespace AwaitScript

namespace Literal
open Grammar

/-- The text starts with what the fault is about. A token has no other faults. -/
def Fault.Stands : Fault → List Char → Prop
  | badEscape, cs => ∃ c rest, cs = '\\' :: c :: rest ∧ c ≠ 'u' ∧ escaped? c = none
  | badUnicodeEscape, cs => ∃ rest, cs = '\\' :: 'u' :: rest ∧
      ∀ a b c d tail, rest = a :: b :: c :: d :: tail → unit? a b c d = none
  | controlCharacter, cs => ∃ c rest, cs = c :: rest ∧ c.toNat < 0x20
  | _, _ => False

theorem Fault.Stands.message {fault : Fault} {cs : List Char} (h : fault.Stands cs) :
    fault.message ∈ ["Invalid \\escape", "Invalid \\uXXXX escape", "Invalid control character at"] := by
  cases fault <;> simp_all [Fault.Stands, Fault.message]

/-! ### One step of reading -/

theorem readBody_badEscape {c : Char} (hc : c ≠ 'u') (h : escaped? c = none) (rest : List Char) :
    readBody ('\\' :: c :: rest) = .error .badEscape := by
  simp [readBody, hc, h]

theorem readBody_escaped {c x : Char} (h : escaped? c = some x) (rest : List Char) :
    readBody ('\\' :: c :: rest) = (readBody rest).map fun (text, rest) => (.scalar x :: text, rest) := by
  have hc : c ≠ 'u' := by rintro rfl; simp [escaped?] at h
  simp [readBody, hc, h]

theorem readBody_badUnit {cs : List Char}
    (h : ∀ a b c d tail, cs = a :: b :: c :: d :: tail → unit? a b c d = none) :
    readBody ('\\' :: 'u' :: cs) = .error .badUnicodeEscape := by
  by_cases hfour : ∃ a b c d tail, cs = a :: b :: c :: d :: tail
  · obtain ⟨a, b, c, d, tail, rfl⟩ := hfour
    simp [readBody, h a b c d tail rfl]
  · exact readBody.eq_4 cs fun a b c d tail hcs => hfour ⟨a, b, c, d, tail, hcs⟩

theorem readBody_control {c : Char} (hc : c.toNat < 0x20) (rest : List Char) :
    readBody (c :: rest) = .error .controlCharacter := by
  have hq : c ≠ '"' := by rintro rfl; exact absurd hc (by decide)
  have hb : c ≠ '\\' := by rintro rfl; exact absurd hc (by decide)
  rw [readBody.eq_def]
  split
  all_goals simp_all

/-! ### Reading a token -/

theorem digits_of_isStringTail {v rest cs : List Char} {a b c d : Char} {unit : Fin 0x10000}
    (hv : IsStringTail v) (h : v ++ rest = [a, b, c, d] ++ cs) (hu : unit? a b c d = some unit) :
    ∃ w, v = [a, b, c, d] ++ w := by
  obtain ⟨w, hw, -⟩ | ⟨w, hw, -⟩ := List.append_eq_append_iff.1 h
  · -- the last quote would be one of the digits
    obtain ⟨body, rfl, -⟩ := hv
    have hquote : '"' ∈ [a, b, c, d] := by simp [hw]
    exact absurd rfl (ne_of_value? (value?_of_unit? hu _ hquote)).1
  · exact ⟨w, hw⟩

/-- How reading ends that starts with `w`, whatever follows: either it takes all of `w`, or a fault stands in
`w` behind text that could be read. -/
inductive Ends (w : List Char) : Prop where
  | value (text : Text) (h : ∀ rest, readBody (w ++ rest) = .ok (text, rest)) : Ends w
  | fault (fault : Fault) (before bad : List Char) (hw : w = before ++ bad)
      (hbefore : ∃ text, ∀ rest, readBody (before ++ '"' :: rest) = .ok (text, rest))
      (hbad : fault.Stands bad) (h : ∀ rest, readBody (w ++ rest) = .error fault) : Ends w

theorem Ends.of_stands (fault : Fault) {w : List Char} (hbad : fault.Stands w)
    (h : ∀ rest, readBody (w ++ rest) = .error fault) : Ends w :=
  .fault fault [] w rfl ⟨[], fun _ => rfl⟩ hbad h

theorem Ends.append_left {w : List Char} (h : Ends w) (piece : List Char) {g : Text → Text}
    (hpiece : ∀ cs, readBody (piece ++ cs) = (readBody cs).map fun (text, rest) => (g text, rest)) :
    Ends (piece ++ w) := by
  cases h with
  | value text h =>
    refine .value (g text) fun rest => ?_
    rw [List.append_assoc, hpiece, h]
    rfl
  | fault fault before bad hw hbefore hbad h =>
    obtain ⟨text, hbefore⟩ := hbefore
    refine .fault fault (piece ++ before) bad (by rw [hw, List.append_assoc]) ⟨g text, fun rest => ?_⟩ hbad
      fun rest => ?_
    · rw [List.append_assoc, hpiece, hbefore]
      rfl
    · rw [List.append_assoc, hpiece, h]
      rfl

/-- An escape of four digits that the last quote cuts off stays wrong, whatever follows. -/
theorem Ends.of_badUnit {cs : List Char} (hcs : IsStringTail cs)
    (h : ∀ a b c d tail, cs = a :: b :: c :: d :: tail → unit? a b c d = none) :
    Ends ('\\' :: 'u' :: cs) := by
  refine .of_stands .badUnicodeEscape ⟨cs, rfl, h⟩ fun rest => ?_
  refine readBody_badUnit fun a b c d tail heq => Option.eq_none_iff_forall_ne_some.2 fun unit hu => ?_
  obtain ⟨v, rfl⟩ := digits_of_isStringTail hcs heq hu
  exact absurd hu (by simp [h a b c d v rfl])

-- by induction along the reader; where it goes on, so does the string of the token
theorem ends_of_isStringTail {w : List Char} (hw : IsStringTail w) : Ends w := by
  fun_induction readBody w with
  | case1 => exact absurd hw not_isStringTail_nil
  | case2 rest =>
    obtain rfl := (isStringTail_quote rest).1 hw
    exact .value [] fun _ => rfl
  | case3 a b c d rest hu =>
    refine .of_badUnit ((isStringTail_escape (by decide) _).1 hw) fun a' b' c' d' tail heq => ?_
    cases heq
    exact hu
  | case4 a b c d rest unit hu ih =>
    exact (ih ((isStringTail_digits hu rest).1 hw)).append_left ['\\', 'u', a, b, c, d] (readBody_digits hu)
  | case5 cs hshort =>
    refine .of_badUnit ((isStringTail_escape (by decide) _).1 hw) fun a b c d tail heq => ?_
    exact (hshort a b c d tail heq).elim
  | case6 c rest _ hc he =>
    exact .of_stands .badEscape ⟨c, rest, rfl, hc, he⟩ fun tail => readBody_badEscape hc he _
  | case7 c rest _ hc x he ih =>
    have hn : c ≠ '\n' := by rintro rfl; simp [escaped?] at he
    exact (ih ((isStringTail_escape hn rest).1 hw)).append_left ['\\', c] (readBody_escaped he)
  | case8 => exact absurd hw not_isStringTail_backslash
  | case9 c rest _ _ _ _ _ hc =>
    exact .of_stands .controlCharacter ⟨c, rest, rfl, hc⟩ fun tail => readBody_control hc _
  | case10 c rest hq _ _ hnext hlast hc ih =>
    have hb : c ≠ '\\' := by
      intro hb
      cases rest with
      | nil => exact hlast hb rfl
      | cons d rest => exact hnext d rest hb rfl
    have hn : c ≠ '\n' := by rintro rfl; exact hc (by decide)
    exact (ih ((isStringTail_cons hq hn hb rest).1 hw)).append_left [c]
      (readBody_plain hq hb (Nat.le_of_not_lt hc))

end Literal

/-! ### Reading source text -/

namespace Grammar

theorem Lexes.isString {before : List Terminal} {sameLine : Bool} {text : List Char} {ts : List Terminal}
    (h : Lexes before sameLine text ts) {token : String} (ht : .string token ∈ ts) : IsString token.toList := by
  induction h with
  | nil => cases ht
  | blank _ _ ih => exact ih ht
  | terminal hm _ _ ih =>
    rcases List.mem_cons.1 ht with rfl | ht
    · obtain ⟨⟨hw, rfl⟩, -⟩ := hm
      exact hw
    · exact ih ht

theorem isString_of_parse {source token : String} {fault : Literal.Fault} {position : Position}
    (h : Source.parse source = .error (.invalidString token fault position)) :
    IsString token.toList ∧ Literal.read token.toList = .error fault := by
  by_cases hd : ∃ d : Derivation .statements, Lexed source d.yield
  · obtain ⟨d, hl⟩ := hd
    obtain ⟨before, v, after, hpost, -, hv⟩ := (parse_eq_error_iff hl _).1 h
    obtain ⟨defect, hdefect, he⟩ := Option.map_eq_some_iff.1 hv
    cases defect with
    | longInteger => cases he
    | target kind => cases he
    | literal text fault' =>
      obtain ⟨rfl, rfl, -⟩ : text = token ∧ fault' = fault ∧ _ := by simpa using he
      obtain ⟨hliteral, hread⟩ := literal?_of_defect? hdefect
      have hmem : .string text ∈ d.yield := (mem_yield_iff rfl).2 ⟨v, by simp [hpost], _, hliteral⟩
      exact ⟨hl.isString hmem, hread⟩
  · obtain ⟨e, he, hsyntax⟩ := parse_not_derivable hd
    obtain rfl := Except.error.inj (he.symm.trans h)
    exact hsyntax.elim

end Grammar

namespace Source
open Literal

theorem readText_of_isString {token : String} (h : Grammar.IsString token.toList) :
    ∃ body, token.toList = '"' :: body ∧
      ((∃ value, (∀ rest, readBody (body ++ rest) = .ok (value, rest)) ∧ Surface.readText token = .ok value) ∨
        ∃ fault before bad, body = before ++ bad ∧
          (∃ value, Literal.read ('"' :: before ++ ['"']) = .ok value) ∧ fault.Stands bad ∧
          Surface.readText token = .error (.literal token fault)) := by
  obtain ⟨inner, htoken, hinner⟩ := h
  have htail : Grammar.IsStringTail (inner ++ ['"']) := ⟨inner, rfl, hinner⟩
  refine ⟨inner ++ ['"'], htoken, ?_⟩
  rw [Surface.readText, htoken, Literal.read]
  cases ends_of_isStringTail htail with
  | value value hvalue =>
    have hbody := hvalue []
    rw [List.append_nil] at hbody
    exact .inl ⟨value, hvalue, by rw [hbody]⟩
  | fault fault before bad hw hbefore hbad hfault =>
    have hbody := hfault []
    rw [List.append_nil] at hbody
    obtain ⟨value, hvalue⟩ := hbefore
    refine .inr ⟨fault, before, bad, hw, ⟨value, ?_⟩, hbad, by rw [hbody]⟩
    rw [List.cons_append, Literal.read, hvalue]

/-- A token that is a string is read up to its last quote and no further, whatever follows it, or a fault
stands in it behind text that could be read: a bad escape, a bad escape of four digits or a control
character. A source text is refused for no other fault of a string. -/
theorem literal_ends_with_token :
    (∀ token : String, Grammar.IsString token.toList → ∃ body, token.toList = '"' :: body ∧
      ((∃ value, (∀ rest, readBody (body ++ rest) = .ok (value, rest)) ∧ Surface.readText token = .ok value) ∨
        ∃ fault before bad, body = before ++ bad ∧
          (∃ value, Literal.read ('"' :: before ++ ['"']) = .ok value) ∧ fault.Stands bad ∧
          Surface.readText token = .error (.literal token fault) ∧ fault.message ∈
            ["Invalid \\escape", "Invalid \\uXXXX escape", "Invalid control character at"])) ∧
    ∀ (source token : String) (fault : Fault) (position : Position),
      parse source = .error (.invalidString token fault position) →
        Grammar.IsString token.toList ∧ fault.message ∈
          ["Invalid \\escape", "Invalid \\uXXXX escape", "Invalid control character at"] := by
  refine ⟨fun token h => ?_, fun source token fault position h => ?_⟩
  · obtain ⟨body, hbody, hvalue | ⟨fault, before, bad, hw, hbefore, hbad, hfault⟩⟩ := readText_of_isString h
    · exact ⟨body, hbody, .inl hvalue⟩
    · exact ⟨body, hbody, .inr ⟨fault, before, bad, hw, hbefore, hbad, hfault, hbad.message⟩⟩
  · obtain ⟨hstring, hread⟩ := Grammar.isString_of_parse h
    have htext : Surface.readText token = .error (.literal token fault) := by rw [Surface.readText, hread]
    obtain ⟨body, -, ⟨value, -, hvalue⟩ | ⟨fault', before, bad, -, -, hbad, hfault⟩⟩ :=
      readText_of_isString hstring
    · exact absurd (htext.symm.trans hvalue) (by simp)
    · obtain rfl : fault = fault' := by simpa using htext.symm.trans hfault
      exact ⟨hstring, hbad.message⟩

def cutOff : String := "\"\\\\\\\"\\u12\""

theorem literal_ends_with_token_cutOff :
    Grammar.IsString cutOff.toList ∧
      (∃ fault before bad, cutOff.toList = '"' :: (before ++ bad) ∧
        (∃ value, Literal.read ('"' :: before ++ ['"']) = .ok value) ∧ fault.Stands bad ∧
        Surface.readText cutOff = .error (.literal cutOff fault)) ∧
      parse cutOff = .error (.invalidString cutOff .badUnicodeEscape ⟨1, 1⟩) ∧
      Fault.badUnicodeEscape.message ∈
        ["Invalid \\escape", "Invalid \\uXXXX escape", "Invalid control character at"] := by
  have hparse : parse cutOff = .error (.invalidString cutOff .badUnicodeEscape ⟨1, 1⟩) := by cbv
  have hread : Surface.readText cutOff = .error (.literal cutOff .badUnicodeEscape) := by cbv
  obtain ⟨hstring, hmessage⟩ := literal_ends_with_token.2 _ _ _ _ hparse
  refine ⟨hstring, ?_, hparse, hmessage⟩
  obtain ⟨body, hbody, ⟨value, -, hvalue⟩ | ⟨fault, before, bad, rfl, hbefore, hbad, hfault, -⟩⟩ :=
    literal_ends_with_token.1 cutOff hstring
  · exact absurd (hread.symm.trans hvalue) (by simp)
  · exact ⟨fault, before, bad, hbody, hbefore, hbad, hfault⟩

end Source
end AwaitScript
