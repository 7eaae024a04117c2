import AwaitScript.Proofs.FirstDefect
import AwaitScript.Proofs.TokenPlaces

/-! The places that errors report. Line and column name one offset of the text, and the error is about
what stands there: the character or the token that was not expected, the string that cannot be read, or
the last token of a text that ends too early. -/
namespace AwaitScript

/-! ### Lines and columns -/

namespace Position

theorem exists_lines (before : List Char) :
    ∃ above current, before = above ++ current ∧ (∀ c ∈ above.getLast?, c = '\n') ∧ '\n' ∉ current := by
  induction before using List.reverseRecOn with
  | nil => exact ⟨[], [], rfl, by simp, by simp⟩
  | append_singleton before c ih =>
    by_cases hc : c = '\n'
    · exact ⟨before ++ [c], [], by simp, by simp [hc], by simp⟩
    · obtain ⟨above, current, rfl, ha, hn⟩ := ih
      exact ⟨above, current ++ [c], by simp, ha, by simp [hn, Ne.symm hc]⟩

theorem after_append {above current : List Char} (ha : ∀ c ∈ above.getLast?, c = '\n')
    (hn : '\n' ∉ current) :
    after (above ++ current) = ⟨above.count '\n' + 1, current.length + 1⟩ := by
  have hcurrent : ∀ c ∈ current.reverse, decide (c ≠ '\n') = true := by
    intro c hc
    have hc : c ∈ current := List.mem_reverse.1 hc
    exact decide_eq_true fun he => hn (he ▸ hc)
  have habove : ∀ c ∈ above.reverse.head?, ¬ decide (c ≠ '\n') = true := by
    intro c hc
    rw [List.head?_reverse] at hc
    simp [ha c hc]
  rw [after, List.reverse_append, (Json.takeWhile_stop hcurrent habove).1, List.length_reverse,
    List.count_append, List.count_eq_zero.2 hn, Nat.add_zero]

end Position

namespace Diagnostic

/-- Line and column lead to the offset: as many line feeds come before it as lines are above, and as many
characters stand before it on its line as columns. Both are counted from one. -/
def PointsAt (d : Diagnostic) (text : List Char) (offset : Nat) : Prop :=
  offset ≤ text.length ∧ ∃ above current, text.take offset = above ++ current ∧
    (∀ c ∈ above.getLast?, c = '\n') ∧ '\n' ∉ current ∧
    d.line = above.count '\n' + 1 ∧ d.column = current.length + 1

def Locates (d : Diagnostic) (text : List Char) (offset : Nat) : Prop :=
  ∀ o, d.PointsAt text o ↔ o = offset

theorem pointsAt_located {text : List Char} {offset : Nat} (h : offset ≤ text.length) (summary : String) :
    (located summary (.ofOffset text offset)).PointsAt text offset := by
  obtain ⟨above, current, ht, ha, hn⟩ := Position.exists_lines (text.take offset)
  refine ⟨h, above, current, ht, ha, hn, ?_⟩
  rw [located, Position.ofOffset, ht, Position.after_append ha hn]
  simp

theorem lines_unique {text above above' : List Char} (h : above <+: text) (h' : above' <+: text)
    (ha' : ∀ c ∈ above'.getLast?, c = '\n') (hcount : above.count '\n' = above'.count '\n')
    (hle : above.length ≤ above'.length) : above = above' := by
  obtain ⟨x, rfl⟩ := List.prefix_of_prefix_length_le h h' hle
  cases x using List.reverseRecOn with
  | nil => simp
  | append_singleton x c =>
    have hc : c = '\n' := ha' c (by simp)
    simp [hc] at hcount

theorem PointsAt.unique {d : Diagnostic} {text : List Char} {o o' : Nat} (h : d.PointsAt text o)
    (h' : d.PointsAt text o') : o = o' := by
  obtain ⟨hle, above, current, ht, ha, -, hline, hcolumn⟩ := h
  obtain ⟨hle', above', current', ht', ha', -, hline', hcolumn'⟩ := h'
  have hp : above <+: text :=
    ⟨current ++ text.drop o, by rw [← List.append_assoc, ← ht, List.take_append_drop]⟩
  have hp' : above' <+: text :=
    ⟨current' ++ text.drop o', by rw [← List.append_assoc, ← ht', List.take_append_drop]⟩
  have hcount : above.count '\n' = above'.count '\n' := by omega
  have habove : above = above' := by
    by_cases hl : above.length ≤ above'.length
    · exact lines_unique hp hp' ha' hcount hl
    · exact (lines_unique hp' hp ha hcount.symm (by omega)).symm
  have hlength := congrArg List.length ht
  have hlength' := congrArg List.length ht'
  simp only [List.length_take, List.length_append, habove] at hlength hlength'
  omega

theorem locates_located {text : List Char} {offset : Nat} (h : offset ≤ text.length) (summary : String) :
    (located summary (.ofOffset text offset)).Locates text offset := by
  have hp := pointsAt_located h summary
  intro o
  constructor
  · intro ho
    exact ho.unique hp
  · intro ho
    exact ho ▸ hp

end Diagnostic

/-! ### Where the parser stops -/

namespace Surface

namespace State

variable {s s' : State} {frames : List Frame} {statements : List Statement} {t : Token} {n : Nat}

theorem beginOperand_error (h : beginOperand frames statements t = .error n) : n = 0 := by
  unfold beginOperand at h
  split at h <;> cases h
  rfl

theorem beginStatement_error (h : beginStatement frames statements t = .error n) : n = 0 := by
  unfold beginStatement at h
  split at h
  · split at h <;> cases h
    rfl
  · split at h
    · cases h
    · exact beginOperand_error h
  · exact beginOperand_error h

theorem beginItem_error (h : beginItem frames statements t = .error n) : n = 0 := by
  unfold beginItem at h
  split at h
  · cases h
  · cases h
  · exact beginOperand_error h

theorem endExpression_error {e : Expression} (h : endExpression e frames statements t = .error n) :
    n = 0 := by
  unfold endExpression at h
  split at h
  case h_9 => exact beginStatement_error h
  case h_10 => exact beginStatement_error h
  all_goals cases h
  rfl

/-- If some characters of a refused token could be read, they are a token that is accepted. -/
theorem step_error (h : s.step t = .error n) :
    n = 0 ∨ ∃ t' s' x xs, s.step t' = .ok s' ∧
      (t' = .equals ∧ t = .arrow ∨ t' = .word "from" ∧ ∃ text, t = .word text) ∧
      t.text = t'.text ++ x :: xs ∧ n = t'.text.length := by
  obtain ⟨mode, frames, statements⟩ := s
  cases mode with
  | statement => exact .inl (beginStatement_error h)
  | operand => exact .inl (beginItem_error h)
  | operator e =>
    simp only [step, afterOperand] at h
    split at h
    · cases h
    · cases h
    · cases h
      exact .inr ⟨.equals, _, '>', [], rfl, .inl ⟨rfl, rfl⟩, rfl, rfl⟩
    · exact .inl (endExpression_error h)
  | afterParameter parameters name =>
    cases t with
    | arrow =>
      cases h
      exact .inr ⟨.equals, _, '>', [], rfl, .inl ⟨rfl, rfl⟩, rfl, rfl⟩
    | _ => cases h <;> exact .inl rfl
  | importFrom name =>
    cases t with
    | word text =>
      simp only [step] at h
      split at h
      · cases h
      split at h
      · next hne hp =>
        cases h
        obtain ⟨rest, hrest⟩ := List.isPrefixOf_iff_prefix.1 hp
        cases rest with
        | nil => exact absurd (String.toList_inj.1 (by simpa using hrest.symm)) hne
        | cons x xs => exact .inr ⟨.word "from", _, x, xs, rfl, .inr ⟨rfl, text, rfl⟩, hrest.symm, rfl⟩
      · cases h
        exact .inl rfl
    | _ =>
      cases h
      exact .inl rfl
  | _ => cases t <;> cases h <;> exact .inl rfl

theorem not_stray_of_reads {tokens : List Token} (h : s.reads tokens = some s') :
    ∀ t ∈ tokens, ∀ c, t ≠ .stray c := by
  induction tokens generalizing s with
  | nil => simp
  | cons t tokens ih =>
    cases hs : s.step t with
    | error n => simp [reads, hs] at h
    | ok s₁ =>
      rw [reads_cons hs] at h
      refine List.forall_mem_cons.2 ⟨fun c hc => ?_, ih h⟩
      have := Grammar.step_stray s c
      rw [← hc, hs] at this
      cases this

end State

/-- The parser stops at the first token that it refuses, or at the end. -/
theorem run_eq_error {s : State} {index : Nat} {tokens : List Token} {fault : Fault}
    (h : run s index tokens = .error fault) :
    (∃ us t ts s' taken, tokens = us ++ t :: ts ∧ s.reads us = some s' ∧ s'.step t = .error taken ∧
      fault = .token (index + us.length) taken) ∨
    ∃ s', s.reads tokens = some s' ∧ s'.finish? = none ∧ fault = .ending := by
  induction tokens generalizing s index with
  | nil =>
    cases hf : s.finish? with
    | some ss => simp [run, hf] at h
    | none => exact .inr ⟨s, rfl, hf, by simpa [run, hf, eq_comm] using h⟩
  | cons t tokens ih =>
    cases hs : s.step t with
    | error taken =>
      exact .inl ⟨[], t, tokens, s, taken, rfl, rfl, hs, by simpa [run, hs, eq_comm] using h⟩
    | ok s₁ =>
      simp only [run, hs] at h
      obtain ⟨us, u, ts, s₂, taken, rfl, hr, hu, rfl⟩ | ⟨s₂, hr, hf, rfl⟩ := ih h
      · exact .inl ⟨t :: us, u, ts, s₂, taken, rfl, (State.reads_cons hs us).trans hr, hu, by
          simp [Nat.add_assoc, Nat.add_comm 1]⟩
      · exact .inr ⟨s₂, (State.reads_cons hs tokens).trans hr, hf, rfl⟩

end Surface

/-! ### What is reported -/

/-- What an error says about the text at an offset. -/
def ParseError.IsAbout (text : List Char) (offset : Nat) : ParseError → Prop
  | .unexpectedCharacter c _ => text[offset]? = some c
  | .unexpectedToken t _ | .invalidString t _ _ => t ≠ "" ∧ t.toList <+: text.drop offset
  | .unexpectedEnd _ => ∃ l blanks, (Lexeme.scan text).getLast? = some l ∧ l.offset = offset ∧
      text.drop offset = l.token.text ++ blanks ∧ ∀ c ∈ blanks, Token.isBlank c
  | .invalidTarget _ | .longInteger => False

def ParseError.Shows (e : ParseError) (text : List Char) (offset : Nat) : Prop :=
  offset ≤ text.length ∧ (∃ summary, e.diagnostic? = some (.located summary (.ofOffset text offset))) ∧
    e.IsAbout text offset

namespace Source
open Surface

variable {text : List Char} {e : ParseError}

/-- A text that is no program: its tokens are read up to one that is refused, or all of them are read. -/
theorem surface_eq_error (h : surface text = .error e) :
    (∃ ls l ms s taken, Lexeme.scan text = ls ++ l :: ms ∧
      State.start.reads (ls.map Lexeme.token) = some s ∧ s.step l.token = .error taken ∧
      e = unexpected text (l.offset + taken)) ∨
    ∃ l s, (Lexeme.scan text).getLast? = some l ∧
      State.start.reads ((Lexeme.scan text).map Lexeme.token) = some s ∧
      e = .unexpectedEnd (.ofOffset text l.offset) := by
  obtain ⟨fault, hf, rfl⟩ := mapError_eq_error_iff.1 h
  obtain ⟨us, t, ts, s, taken, ht, hr, hs, rfl⟩ | ⟨s, hr, hs, rfl⟩ := run_eq_error hf
  · obtain ⟨ls, ms, hl, rfl, hms⟩ := List.map_eq_append_iff.1 ht
    obtain ⟨l, ms, rfl, rfl, -⟩ := List.map_eq_cons_iff.1 hms
    refine .inl ⟨ls, l, ms, s, taken, hl, hr, hs, ?_⟩
    simp [faultError, hl]
  · cases hl : (Lexeme.scan text).getLast? with
    | none =>
      -- without tokens there is nothing that could be open
      rw [List.getLast?_eq_none_iff.1 hl] at hr
      cases hr
      cases hs
    | some l => exact .inr ⟨l, s, rfl, hr, by simp [faultError, hl]⟩

theorem shows_unexpected {offset : Nat} (h : offset < text.length) :
    (unexpected text offset).Shows text offset := by
  have hd : text.drop offset = text[offset] :: text.drop (offset + 1) := List.drop_eq_getElem_cons h
  have htext := Token.text_scan false text[offset] (text.drop (offset + 1))
  have hne := Token.text_ne_nil false text[offset] (text.drop (offset + 1))
  rw [← hd] at htext
  rw [unexpected, hd]
  dsimp only
  split
  · next c hc =>
    refine ⟨h.le, ⟨_, rfl⟩, ?_⟩
    rw [hc, hd] at htext
    rw [ParseError.IsAbout, List.getElem?_eq_getElem h]
    exact congrArg some (List.cons.inj htext).1.symm
  · refine ⟨h.le, ⟨_, rfl⟩, ?_, ?_⟩
    · rwa [Ne, ← String.toList_inj, String.toList_ofList]
    · rw [String.toList_ofList]
      exact ⟨_, htext⟩

theorem refused_lt_length {ls ms : List Lexeme} {l : Lexeme} {s : State} {taken : Nat}
    (hl : Lexeme.scan text = ls ++ l :: ms) (hs : s.step l.token = .error taken) :
    l.offset + taken < text.length := by
  have hmem : l ∈ Lexeme.scan text := by simp [hl]
  have hlength := Lexeme.offset_lt_length hmem
  obtain rfl | ⟨t, s', x, xs, -, -, ht, rfl⟩ := State.step_error hs
  · omega
  · rw [ht, List.length_append, List.length_cons] at hlength
    omega

theorem shows_of_surface (h : surface text = .error e) : ∃ offset, e.Shows text offset := by
  obtain ⟨ls, l, ms, s, taken, hl, -, hs, rfl⟩ | ⟨l, s, hl, -, rfl⟩ := surface_eq_error h
  · exact ⟨_, shows_unexpected (refused_lt_length hl hs)⟩
  · obtain ⟨ls, hls⟩ := List.getLast?_eq_some_iff.1 hl
    have hsuffix : [l] <:+ Lexeme.scanFrom false 0 text := ⟨ls, hls.symm⟩
    obtain ⟨before, c, cs, rest, onLine, rfl, ho, -, hscan, hrest⟩ := Lexeme.scanFrom_split hsuffix
    have htext := Token.text_scan onLine c cs
    rw [hscan] at htext
    rw [Nat.zero_add] at ho
    refine ⟨l.offset, by simp [ho], ⟨_, rfl⟩, l, rest, hl, rfl, ?_, Lexeme.scanFrom_eq_nil hrest.symm⟩
    rw [ho, List.drop_left]
    exact htext.symm

end Source

namespace Grammar

theorem scan_of_literal {source : String} {d : Derivation .statements} (hl : Lexed source d.yield)
    {v : Vertex} (hv : v ∈ d.postorder 0) {text : String} {fault : Literal.Fault}
    (hd : v.defect? = some (.literal text fault)) :
    ∃ l, (Lexeme.scan source.toList)[v.place]? = some l ∧ l.token = .string text := by
  have hmem : (Terminal.string text, v.place) ∈ literals 0 d.yield := by
    rw [← filterMap_literal? d 0]
    exact List.mem_filterMap.2 ⟨v, hv, (literal?_of_defect? hd).1⟩
  have hyield : d.yield[v.place]? = some (.string text) :=
    List.mk_mem_zipIdx_iff_getElem?.1 (List.mem_filter.1 hmem).1
  have htokens := congrArg (fun ts => ts[v.place]?) (plain_tokens_scanFrom hl false 0)
  simp only [List.getElem?_map, hyield, Option.map_some] at htokens
  obtain ⟨l, hl, hp⟩ := Option.map_eq_some_iff.1 htokens
  exact ⟨l, hl, eq_of_plain hp Token.noConfusion Token.noConfusion⟩

theorem shows_of_defect {source : String} {d : Derivation .statements} (hl : Lexed source d.yield)
    {e : ParseError} (h : Source.parse source = .error e) {diagnostic : Diagnostic}
    (hd : e.diagnostic? = some diagnostic) (hline : diagnostic.line ≠ 0) :
    ∃ offset, e.Shows source.toList offset := by
  obtain ⟨before, v, after, hpost, -, he⟩ := (parse_eq_error_iff hl e).1 h
  obtain ⟨defect, hdefect, he⟩ := Option.map_eq_some_iff.1 he
  cases defect with
  | longInteger =>
    cases he
    cases hd
  | target kind =>
    cases he
    cases hd
    exact absurd rfl hline
  | literal text fault =>
    obtain ⟨l, hplace, htoken⟩ := scan_of_literal hl (by simp [hpost]) hdefect
    obtain rfl : .invalidString text fault (.ofOffset source.toList l.offset) = e := by
      rw [← he, hplace]
      rfl
    obtain ⟨front, rest, htext, ho, hne⟩ := Lexeme.scan_place (List.mem_of_getElem? hplace)
    rw [htoken] at hne htext
    refine ⟨l.offset, ?_, ⟨_, rfl⟩, ?_⟩
    · rw [htext, List.length_append]
      omega
    · refine ⟨fun h => hne (by rw [h]; rfl), rest, ?_⟩
      rw [htext, ← ho, List.drop_left]
      rfl

end Grammar

namespace Source

end Source
end AwaitScript
