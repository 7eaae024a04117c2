import AwaitScript.Proofs.ReportedPlaces
import AwaitScript.Proofs.SourceWriter

/-! A syntax error is reported at the first place where no program goes on. Whatever is open after some
tokens can be closed: every open construct has the tokens that end it, and none of them is a parenthesis,
so that it does not matter on which line they stand. -/
namespace AwaitScript

namespace Surface

def Frame.closing : Frame → List Token
  | .array _ => [.closeBracket]
  | .arguments _ _ => [.closeParen]
  | .assignment _ => []
  | .entry _ _ => [.closeBrace]
  | .default _ _ => [.closeParen, .arrow, .openBrace, .closeBrace]
  | .body _ _ => [.closeBrace]

def Mode.closing : Mode → List Token
  | .statement | .operand => [.word "x"]
  | .operator _ => []
  | .key _ | .afterKey _ _ => [.closeBrace]
  | .parameter _ | .afterParameter _ _ => [.closeParen, .arrow, .openBrace, .closeBrace]
  | .arrow _ => [.arrow, .openBrace, .closeBrace]
  | .brace _ => [.openBrace, .closeBrace]
  | .importName => [.word "x", .word "from", .string "\"\"", .word "x"]
  | .importFrom _ => [.word "from", .string "\"\"", .word "x"]
  | .importPath _ => [.string "\"\"", .word "x"]

namespace State

/-- The tokens that make a program of what has been read. -/
def closing (s : State) : List Token := s.mode.closing ++ s.frames.flatMap Frame.closing

theorem reads_mode_closing (s : State) :
    ∃ e statements, s.reads s.mode.closing = some ⟨.operator e, s.frames, statements⟩ := by
  obtain ⟨mode, frames, statements⟩ := s
  cases mode <;> exact ⟨_, _, rfl⟩

/- The frames are closed from the innermost one on; an assignment ends with its value. -/
theorem reads_frames_closing {s : State} {e : Expression} {frames : List Frame}
    {statements : List Statement} (h : s.Ends e frames statements) :
    ∃ s' ss, s.reads (frames.flatMap Frame.closing) = some s' ∧ s'.finish? = some ss := by
  induction frames generalizing s e statements with
  | nil =>
    obtain ⟨e', frames', rfl, hs⟩ := h
    refine ⟨_, (.expression e :: statements).reverse, rfl, ?_⟩
    simp only [finish?, hs]
    rfl
  | cons frame frames ih =>
    cases frame with
    | assignment target => exact ih (e := .assignment target e) h
    | array items | arguments callee items | entry entries key | default parameters name
    | body parameters outer =>
      rw [List.flatMap_cons, Frame.closing, List.cons_append, State.reads, h.step_eq (by decide)]
      exact ih ⟨_, _, rfl, rfl⟩

theorem reads_closing (s : State) : ∃ s' ss, s.reads s.closing = some s' ∧ s'.finish? = some ss := by
  obtain ⟨e, statements, h⟩ := s.reads_mode_closing
  rw [closing, reads_append_of h]
  exact reads_frames_closing ⟨e, s.frames, rfl, rfl⟩

def closers : List Token :=
  [.word "x", .word "from", .string "\"\"", .closeParen, .closeBracket, .openBrace, .closeBrace, .arrow]

theorem mem_closers {s : State} {t : Token} (h : t ∈ s.closing) : t ∈ closers := by
  have hframe (frame : Frame) : ∀ t ∈ frame.closing, t ∈ closers := by
    cases frame <;> simp [Frame.closing, closers]
  have hmode (mode : Mode) : ∀ t ∈ mode.closing, t ∈ closers := by
    cases mode <;> simp [Mode.closing, closers]
  obtain h | h := List.mem_append.1 h
  · exact hmode _ t h
  · obtain ⟨frame, -, h⟩ := List.mem_flatMap.1 h
    exact hframe frame t h

theorem isSpelled_closing (s : State) : ∀ t ∈ s.closing, t.IsSpelled := by
  have hclosers : ∀ t ∈ closers, t.IsSpelled := by
    simp only [closers, List.forall_mem_cons]
    exact ⟨⟨'x', [], rfl, by decide, by simp⟩, Grammar.keyword_isWord .origin,
      Literal.isString_write Literal.ascii [], trivial, trivial, trivial, trivial, trivial, by simp⟩
  intro t ht
  exact hclosers t (mem_closers ht)

end State
end Surface

/-- What was read before an error: all of the text if it ends too early, and otherwise what stands before
the offset. -/
def ParseError.readText (text : List Char) (offset : Nat) : ParseError → List Char
  | .unexpectedEnd _ => text
  | _ => text.take offset

namespace Source
open Surface

/-- A text whose tokens are all read can be extended to one that is read as a whole. -/
theorem exists_extension {text : List Char} {s : State}
    (h : State.start.reads ((Lexeme.scan text).map Lexeme.token) = some s) :
    ∃ rest, ∃ ss, surface (text ++ rest) = .ok ss := by
  have hcross : ∀ l ∈ Lexeme.scan (text ++ []), l.offset < text.length →
      l.offset + l.token.text.length ≤ text.length ∧ ∀ x, l.token ≠ .stray x := by
    rw [List.append_nil]
    intro l hl _
    exact ⟨(Lexeme.offset_lt_length hl).1, State.not_stray_of_reads h _ (List.mem_map_of_mem hl)⟩
  obtain ⟨onLine, hcut⟩ := Lexeme.scan_append_cut hcross
  obtain ⟨s', ss, hreads, hfinish⟩ := s.reads_closing
  -- no parenthesis comes first, so the tokens are those that follow an operand
  have htokens := Lexeme.tokens_spell hreads s.isSpelled_closing (fun _ => rfl) text.length
  have hline : ∀ l ∈ (Lexeme.scanFrom true text.length (Token.spell s.closing)).head?,
      l.token.text ≠ ['('] := by
    intro l hl
    have hparen : ∀ t ∈ State.closers, t.text ≠ ['('] := by decide
    apply hparen
    apply State.mem_closers (s := s)
    rw [← htokens]
    exact List.mem_map_of_mem (List.mem_of_mem_head? hl)
  refine ⟨Token.spell s.closing, ss, mapError_eq_ok_iff.2 (run_eq_ok_iff.2 ⟨s', ?_, hfinish⟩)⟩
  have hscan := hcut [] (Token.spell s.closing) ⟨_, rfl⟩ (Token.ends_spell _)
  rw [List.nil_append] at hscan
  rw [hscan, List.map_append, Lexeme.scanFrom_line hline, htokens, State.reads_append_of h, hreads]

/-- The characters of a token that were read before the token was refused are read as a token. -/
theorem exists_extension_cut {text : List Char} {ls ms : List Lexeme} {l : Lexeme} {s : State} {taken : Nat}
    (hl : Lexeme.scan text = ls ++ l :: ms) (hr : State.start.reads (ls.map Lexeme.token) = some s)
    (hs : s.step l.token = .error taken) :
    ∃ rest ss, surface (text.take (l.offset + taken) ++ rest) = .ok ss := by
  obtain ⟨onLine, hcut⟩ := Lexeme.scan_cut hl fun m hm =>
    State.not_stray_of_reads hr _ (List.mem_map_of_mem hm)
  obtain rfl | ⟨t, s', x, xs, hstep, ht, htext, rfl⟩ := State.step_error hs
  · have hscan := hcut [] [] ⟨_, rfl⟩ Token.ends_nil
    rw [List.append_nil, List.append_nil, Lexeme.scanFrom, List.append_nil] at hscan
    rw [Nat.add_zero]
    exact exists_extension (hscan ▸ hr)
  · have hspelled : t.IsSpelled ∧ t ≠ .callParen ∧ t ≠ .openParen := by
      obtain ⟨rfl, -⟩ | ⟨rfl, -⟩ := ht
      · exact ⟨trivial, by decide, by decide⟩
      · exact ⟨Grammar.keyword_isWord .origin, by decide, by decide⟩
    have hmem : l ∈ Lexeme.scan text := by simp [hl]
    obtain ⟨before, rest, hplace, ho, -⟩ := Lexeme.scan_place hmem
    have hdrop : text.drop l.offset = t.text ++ (x :: xs ++ rest) := by
      rw [hplace, ← ho, List.drop_left, htext, List.append_assoc]
    have htake : text.take (l.offset + t.text.length) = text.take l.offset ++ t.text := by
      rw [List.take_add, hdrop, List.take_left]
    have hscan := hcut t.text [] ⟨_, hdrop.symm⟩ Token.ends_nil
    rw [List.append_nil, Lexeme.scanFrom_text hspelled.1 hspelled.2.1 hspelled.2.2] at hscan
    rw [htake]
    refine exists_extension (s := s') ?_
    rw [hscan, List.map_append, State.reads_append_of hr]
    exact State.reads_cons hstep []

theorem readText_unexpected {text : List Char} {offset : Nat} (h : offset < text.length) :
    (unexpected text offset).readText text offset = text.take offset := by
  rw [unexpected, List.drop_eq_getElem_cons h]
  dsimp only
  split <;> rfl

theorem surface_of_isSyntaxError {source : String} {e : ParseError} (h : parse source = .error e)
    (he : Grammar.IsSyntaxError e) : surface source.toList = .error e := by
  cases hs : surface source.toList with
  | error e' => simpa [parse, hs] using h
  | ok ss =>
    have hp := (Grammar.passesSyntax_parse_iff source).2 ⟨ss, hs⟩
    rw [h] at hp
    cases e <;> first | exact he.elim | exact hp.elim

/-- A syntax error never comes too late: what stands before the place that it shows, or the whole text if
it ends too early, can be extended to a text without a syntax error. -/
theorem syntax_error_not_late {source : String} {e : ParseError} (h : parse source = .error e)
    (he : Grammar.IsSyntaxError e) :
    ∃ d offset, e.diagnostic? = some d ∧ d.Locates source.toList offset ∧
      ∃ rest : String, Grammar.PassesSyntax
        (parse (String.ofList (e.readText source.toList offset) ++ rest)) := by
  have hsurface := surface_of_isSyntaxError h he
  obtain ⟨offset, ⟨hle, ⟨summary, hd⟩, -⟩, rest, ss, hss⟩ : ∃ offset, e.Shows source.toList offset ∧
      ∃ rest ss, surface (e.readText source.toList offset ++ rest) = .ok ss := by
    obtain ⟨ls, l, ms, s, taken, hl, hr, hs, rfl⟩ | ⟨l, s, -, hr, rfl⟩ := surface_eq_error hsurface
    · have hlt := refused_lt_length hl hs
      refine ⟨_, shows_unexpected hlt, ?_⟩
      rw [readText_unexpected hlt]
      exact exists_extension_cut hl hr hs
    · obtain ⟨offset, hshows⟩ := shows_of_surface hsurface
      exact ⟨offset, hshows, exists_extension hr⟩
  refine ⟨_, offset, hd, Diagnostic.locates_located hle summary, String.ofList rest, ?_⟩
  rw [Grammar.passesSyntax_parse_iff, String.toList_append, String.toList_ofList, String.toList_ofList]
  exact ⟨ss, hss⟩

theorem syntax_error_not_late_arrow :
    parse "f([a] = [\n() => \x7b b => \"\" \x7d])" = .error (.unexpectedCharacter '>' ⟨2, 12⟩) ∧
      Grammar.IsSyntaxError (.unexpectedCharacter '>' ⟨2, 12⟩) ∧
      ∃ d offset, ParseError.diagnostic? (.unexpectedCharacter '>' ⟨2, 12⟩) = some d ∧
        d.Locates "f([a] = [\n() => \x7b b => \"\" \x7d])".toList offset ∧
        ∃ rest : String, Grammar.PassesSyntax (parse (String.ofList
          (ParseError.readText "f([a] = [\n() => \x7b b => \"\" \x7d])".toList offset
            (.unexpectedCharacter '>' ⟨2, 12⟩)) ++ rest)) := by
  have h : parse "f([a] = [\n() => \x7b b => \"\" \x7d])" =
      .error (.unexpectedCharacter '>' ⟨2, 12⟩) := by cbv
  have he : Grammar.IsSyntaxError (.unexpectedCharacter '>' ⟨2, 12⟩) := trivial
  exact ⟨h, he, syntax_error_not_late h he⟩

end Source
end AwaitScript
