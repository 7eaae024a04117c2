import AwaitScript.Proofs.ReportedPlaces
import AwaitScript.Text.Line

/-! The layout of a source. Blanks between tokens may be exchanged for other blanks; only before a
parenthesis does it matter whether a line ends there. A carriage return before a line feed never matters:
the program is the same, and errors show the same line and column. -/
namespace AwaitScript

/-! ### Blanks between tokens -/

namespace Lexeme

def IsBlankRun (w : List Char) : Prop := w ≠ [] ∧ ∀ c ∈ w, Token.isBlank c

/-- Blanks between two texts that no token of the whole takes in: each one ends before them or starts
after them. -/
structure Gap (u w v : List Char) : Prop where
  isBlankRun : IsBlankRun w
  outside : ∀ l ∈ scan (u ++ w ++ v),
    l.offset + l.token.text.length ≤ u.length ∨ u.length + w.length ≤ l.offset

def next? (u w v : List Char) : Option Lexeme :=
  (scan (u ++ w ++ v)).find? fun l => u.length + w.length ≤ l.offset

variable {u w w' v : List Char}

theorem Gap.scan_eq (h : Gap u w v) (hs : ∀ l ∈ scan (u ++ w ++ v), ∀ x, l.token ≠ .stray x) :
    ∃ onLine, ∀ w', IsBlankRun w' →
      scan (u ++ w' ++ v) =
        scan u ++ scanFrom (onLine && decide ('\n' ∉ w')) (u.length + w'.length) v := by
  have hcross : ∀ l ∈ scan (u ++ (w ++ v)), l.offset < u.length →
      l.offset + l.token.text.length ≤ u.length ∧ ∀ x, l.token ≠ .stray x := by
    intro l hl ho
    rw [← List.append_assoc] at hl
    have hout := h.outside l hl
    exact ⟨by omega, hs l hl⟩
  obtain ⟨onLine, hcut⟩ := scan_append_cut hcross
  refine ⟨onLine, fun w' hw' => ?_⟩
  have hends : Token.Ends (w' ++ v) := by
    obtain ⟨hne, hblank⟩ := hw'
    obtain ⟨c, cs, rfl⟩ := List.exists_cons_of_ne_nil hne
    intro x hx
    obtain rfl : c = x := by simpa using hx
    exact hblank c List.mem_cons_self
  have hscan := hcut [] (w' ++ v) List.nil_prefix hends
  rw [List.nil_append, scanFrom_blanks hw'.2] at hscan
  rw [List.append_assoc, hscan]

theorem next?_eq {onLine : Bool}
    (h : scan (u ++ w ++ v) = scan u ++ scanFrom onLine (u.length + w.length) v) :
    next? u w v = (scanFrom onLine (u.length + w.length) v).head? := by
  have hu : ∀ l ∈ scan u, ¬ decide (u.length + w.length ≤ l.offset) = true := by
    intro l hl
    have := (offset_lt_length hl).2
    rw [decide_eq_true_iff]
    omega
  rw [next?, h, List.find?_append, List.find?_eq_none.2 hu, Option.none_or]
  cases hv : scanFrom onLine (u.length + w.length) v with
  | nil => rfl
  | cons l ls =>
    have hl : u.length + w.length ≤ l.offset := le_offset (hv ▸ List.mem_cons_self)
    simp [hl]

/-- With other blanks in a gap a text has the same tokens, unless they make a parenthesis one that opens a
call, or keep it from that. -/
theorem Gap.tokens_eq (h : Gap u w v) (hs : ∀ l ∈ scan (u ++ w ++ v), ∀ x, l.token ≠ .stray x)
    (hw' : IsBlankRun w')
    (hnext : (∀ l ∈ next? u w v, l.token.text ≠ ['(']) ∨ ('\n' ∈ w ↔ '\n' ∈ w')) :
    (scan (u ++ w' ++ v)).map token = (scan (u ++ w ++ v)).map token := by
  obtain ⟨onLine, hscan⟩ := h.scan_eq hs
  have hw := hscan w h.isBlankRun
  rw [hscan w' hw', hw, List.map_append, List.map_append]
  obtain hnext | hline := hnext
  · rw [next?_eq hw] at hnext
    rw [← scanFrom_line hnext (onLine && decide ('\n' ∉ w')),
      tokens_scanFrom _ (u.length + w'.length) (u.length + w.length)]
  · rw [decide_eq_decide.2 (not_congr hline),
      tokens_scanFrom _ (u.length + w'.length) (u.length + w.length)]

end Lexeme

namespace Source

/-- The blanks between two tokens, before the first or after the last may be exchanged for others. If a
parenthesis comes next, both or neither of them must end the line. -/
theorem parse_exchange_blanks {u w v w' : String} {program : Program}
    (h : parse (u ++ w ++ v) = .ok program) (hgap : Lexeme.Gap u.toList w.toList v.toList)
    (hw' : Lexeme.IsBlankRun w'.toList)
    (hnext : (∀ l ∈ Lexeme.next? u.toList w.toList v.toList, l.token.text ≠ ['(']) ∨
      ('\n' ∈ w.toList ↔ '\n' ∈ w'.toList)) :
    parse (u ++ w' ++ v) = .ok program := by
  obtain ⟨ss, hsurface, hprogram⟩ := parse_eq_ok_iff.1 h
  have hparse := mapError_eq_ok_iff.1 hsurface
  simp only [String.toList_append] at hparse
  obtain ⟨s, hreads, -⟩ := Surface.run_eq_ok_iff.1 hparse
  have htokens := hgap.tokens_eq (fun l hl =>
    Surface.State.not_stray_of_reads hreads _ (List.mem_map_of_mem hl)) hw' hnext
  refine parse_eq_ok_iff.2 ⟨ss, mapError_eq_ok_iff.2 ?_, hprogram⟩
  simp only [String.toList_append]
  rw [htokens, hparse]

theorem parse_exchange_blanks_formFeed :
    parse ("f" ++ "\n" ++ "\x0c(x) => \x7b\x7d") =
        .ok [.identifier "f", .function [[.identifier "x"]] []] ∧
      Lexeme.Gap "f".toList "\n".toList "\x0c(x) => \x7b\x7d".toList ∧
      Lexeme.IsBlankRun "\t\r\n\n".toList ∧
      parse ("f" ++ "\t\r\n\n" ++ "\x0c(x) => \x7b\x7d") =
        .ok [.identifier "f", .function [[.identifier "x"]] []] := by
  have h : parse ("f" ++ "\n" ++ "\x0c(x) => \x7b\x7d") =
      .ok [.identifier "f", .function [[.identifier "x"]] []] := by cbv
  have hgap : Lexeme.Gap "f".toList "\n".toList "\x0c(x) => \x7b\x7d".toList :=
    ⟨by simp [Lexeme.IsBlankRun, Token.isBlank], by decide +kernel⟩
  have hw : Lexeme.IsBlankRun "\t\r\n\n".toList := by simp [Lexeme.IsBlankRun, Token.isBlank]
  exact ⟨h, hgap, hw, parse_exchange_blanks h hgap hw (.inr (by decide))⟩

end Source

/-! ### Line ends -/

namespace LineBreak

/-- A carriage return before a line feed is left out. -/
def joinPairs : List Char → List Char
  | [] => []
  | '\r' :: '\n' :: rest => '\n' :: joinPairs rest
  | c :: rest => c :: joinPairs rest

theorem joinPairs_cons {c : Char} {v : List Char} (h : c = '\r' → v.head? ≠ some '\n') :
    joinPairs (c :: v) = c :: joinPairs v := by
  rw [joinPairs]
  intro rest hc hv
  exact h hc (by rw [hv]; rfl)

theorem joinPairs_append {v : List Char} (hv : v.head? ≠ some '\n') (u : List Char) :
    joinPairs (u ++ v) = joinPairs u ++ joinPairs v := by
  fun_induction joinPairs u with
  | case1 => rfl
  | case2 rest ih => rw [List.cons_append, List.cons_append, joinPairs, ih, List.cons_append]
  | case3 c rest hpair ih =>
    rw [List.cons_append, joinPairs_cons, ih, List.cons_append]
    intro hc hn
    cases rest with
    | nil => exact hv hn
    | cons d rest => exact hpair rest hc (by simpa using hn)

theorem joinPairs_eq_self {u : List Char} (h : '\n' ∉ u) : joinPairs u = u := by
  induction u with
  | nil => rfl
  | cons c u ih =>
    have hu : '\n' ∉ u := fun hu => h (List.mem_cons_of_mem c hu)
    rw [joinPairs_cons, ih hu]
    intro _ hn
    exact hu (List.mem_of_mem_head? hn)

theorem count_joinPairs (u : List Char) : (joinPairs u).count '\n' = u.count '\n' := by
  fun_induction joinPairs u with
  | case1 => rfl
  | case2 rest ih => simp [ih]
  | case3 c rest hpair ih => rw [List.count_cons, List.count_cons, ih]

theorem getLast?_joinPairs (u : List Char) : (joinPairs u).getLast? = u.getLast? := by
  fun_induction joinPairs u with
  | case1 => rfl
  | case2 rest ih => simp [List.getLast?_cons, ih]
  | case3 c rest hpair ih => rw [List.getLast?_cons, List.getLast?_cons, ih]

theorem normalize_eq_joinPairs {u : List Char}
    (h : ∀ v w, u = v ++ '\r' :: w → w.head? = some '\n') : normalize u = joinPairs u := by
  fun_induction joinPairs u with
  | case1 => rfl
  | case2 rest ih =>
    rw [normalize, ih]
    intro v w hv
    exact h ('\r' :: '\n' :: v) w (by rw [hv]; rfl)
  | case3 c rest hpair ih =>
    have hc : c ≠ '\r' := by
      intro hc
      subst hc
      cases rest with
      | nil => exact absurd (h [] [] rfl) (by decide)
      | cons d rest =>
        obtain rfl : d = '\n' := by simpa using h [] (d :: rest) rfl
        exact hpair rest rfl rfl
    rw [normalize, if_neg hc, ih]
    · intro v w hv
      exact h (c :: v) w (by rw [hv]; rfl)
    · exact fun rest hr => absurd hr hc

theorem keepsLine_joinPairs : Token.KeepsLine joinPairs := by
  intro u
  fun_cases joinPairs u with
  | case1 => exact .inl ⟨rfl, rfl⟩
  | case2 rest => exact .inl ⟨rfl, rfl⟩
  | case3 c rest hpair =>
    by_cases hc : c = '\n'
    · subst hc
      exact .inl ⟨rfl, rfl⟩
    · exact .inr ⟨c, rest, hc, rfl, rfl⟩

end LineBreak

open LineBreak

theorem Position.after_joinPairs (before : List Char) : after (joinPairs before) = after before := by
  obtain ⟨above, current, rfl, ha, hn⟩ := exists_lines before
  have hcurrent : current.head? ≠ some '\n' := fun h => hn (List.mem_of_mem_head? h)
  have ha' : ∀ c ∈ (joinPairs above).getLast?, c = '\n' := by
    rw [getLast?_joinPairs]
    exact ha
  rw [joinPairs_append hcurrent, joinPairs_eq_self hn, after_append ha hn, after_append ha' hn,
    count_joinPairs]

theorem Token.ne_of_not_isBlank {c : Char} (hc : ¬ isBlank c) : c ≠ '\n' ∧ c ≠ '\r' := by
  constructor <;> intro h <;> exact hc (by rw [h]; decide)

theorem Token.length_scan (afterOperand : Bool) (c : Char) (cs : List Char) :
    (scan afterOperand c cs).1.text.length + (scan afterOperand c cs).2.length = cs.length + 1 := by
  simpa using congrArg List.length (text_scan afterOperand c cs)

namespace Lexeme

def moved (text : List Char) (l : Lexeme) : Lexeme :=
  ⟨l.token, (joinPairs text).length - (joinPairs (text.drop l.offset)).length⟩

variable {text : List Char}

/- The offsets on both sides are those of the rest; so no cut has to be made between a carriage return and
its line feed. -/
theorem scanFrom_joinPairs {rest : List Char} {offset offset' : Nat} (h : rest <:+ text)
    (ho : offset + rest.length = text.length)
    (ho' : offset' + (joinPairs rest).length = (joinPairs text).length) (afterOperand : Bool) :
    scanFrom afterOperand offset' (joinPairs rest) =
      (scanFrom afterOperand offset rest).map (moved text) := by
  induction hn : rest.length using Nat.strongRecOn generalizing rest offset offset' afterOperand with
  | ind n ih =>
    subst hn
    by_cases hpair : ∃ v, rest = '\r' :: '\n' :: v
    · obtain ⟨v, rfl⟩ := hpair
      have hv : v <:+ text := ((List.suffix_cons _ _).trans (List.suffix_cons _ _)).trans h
      rw [joinPairs, List.length_cons] at ho'
      rw [List.length_cons, List.length_cons] at ho
      rw [joinPairs, scanFrom_blank (by decide), scanFrom_blank (by decide), scanFrom_blank (by decide)]
      simpa using ih v.length (by simp) hv (by omega) (by omega) false rfl
    cases rest with
    | nil => rw [joinPairs, scanFrom, scanFrom, List.map_nil]
    | cons c cs =>
      have hjoin : joinPairs (c :: cs) = c :: joinPairs cs := by
        rw [joinPairs]
        intro v hc hv
        exact hpair ⟨v, by rw [hc, hv]⟩
      rw [hjoin, List.length_cons] at ho'
      by_cases hc : Token.isBlank c
      · rw [hjoin, scanFrom_blank hc, scanFrom_blank hc]
        rw [List.length_cons] at ho
        exact ih cs.length (by simp) ((List.suffix_cons c cs).trans h) (by omega) (by omega) _ rfl
      · have hscan := Token.scan_keepsLine keepsLine_joinPairs afterOperand c cs
        have hlength := Token.length_scan afterOperand c cs
        have hlength' := Token.length_scan afterOperand c (joinPairs cs)
        have hpos := List.length_pos_iff.2 (Token.text_ne_nil afterOperand c cs)
        have hrest : (Token.scan afterOperand c cs).2 <:+ text :=
          List.IsSuffix.trans ⟨_, Token.text_scan afterOperand c cs⟩ h
        have hdrop : text.drop offset = c :: cs := by
          rw [List.suffix_iff_eq_drop.1 h, ← ho, Nat.add_sub_cancel]
        rw [List.length_cons] at ho
        rw [hscan] at hlength'
        dsimp only at hlength'
        rw [hjoin, scanFrom_token hc, scanFrom_token hc, hscan, List.map_cons, moved, hdrop, hjoin,
          List.length_cons, ← ho', Nat.add_sub_cancel]
        congr 1
        exact ih _ (by simp; omega) hrest (by omega) (by simp; omega) _ rfl

theorem scan_joinPairs (text : List Char) : scan (joinPairs text) = (scan text).map (moved text) :=
  scanFrom_joinPairs List.suffix_rfl (Nat.zero_add _) (Nat.zero_add _) false

theorem tokens_joinPairs (text : List Char) :
    (scan (joinPairs text)).map token = (scan text).map token := by
  rw [scan_joinPairs, List.map_map]
  rfl

theorem moved_place {l : Lexeme} (h : l ∈ scan text) :
    ∃ before c cs rest onLine, text = before ++ c :: cs ∧ before.length = l.offset ∧
      (joinPairs before).length = (moved text l).offset ∧ ¬ Token.isBlank c ∧
      Token.scan onLine c cs = (l.token, rest) := by
  obtain ⟨ls, ms, hs⟩ := List.append_of_mem h
  obtain ⟨before, c, cs, rest, onLine, rfl, ho, hc, hscan, -⟩ := scanFrom_split ⟨ls, hs.symm⟩
  rw [Nat.zero_add] at ho
  refine ⟨before, c, cs, rest, onLine, rfl, ho.symm, ?_, hc, hscan⟩
  have hn : (c :: cs).head? ≠ some '\n' := by simpa using (Token.ne_of_not_isBlank hc).1
  rw [moved, ho, List.drop_left, joinPairs_append hn, List.length_append, Nat.add_sub_cancel]

end Lexeme

namespace Source
open Surface

variable {text : List Char}

theorem ofOffset_joinPairs {v : List Char} (hv : v.head? ≠ some '\n') (u : List Char) :
    Position.ofOffset (joinPairs (u ++ v)) (joinPairs u).length = Position.ofOffset (u ++ v) u.length := by
  rw [Position.ofOffset, Position.ofOffset, joinPairs_append hv, List.take_left, List.take_left,
    Position.after_joinPairs]

theorem ofOffset_moved {l? : Option Lexeme} (h : ∀ l ∈ l?, l ∈ Lexeme.scan text) :
    Position.ofOffset (joinPairs text) (((l?.map (Lexeme.moved text)).map Lexeme.offset).getD 0) =
      Position.ofOffset text ((l?.map Lexeme.offset).getD 0) := by
  cases l? with
  | none => rfl
  | some l =>
    obtain ⟨before, c, cs, rest, onLine, rfl, ho, ho', hc, -⟩ := Lexeme.moved_place (h l rfl)
    have hn : (c :: cs).head? ≠ some '\n' := by simpa using (Token.ne_of_not_isBlank hc).1
    simp only [Option.map_some, Option.getD_some, ← ho, ← ho']
    exact ofOffset_joinPairs hn before

theorem unexpected_joinPairs {c : Char} (hn : c ≠ '\n') (hr : c ≠ '\r') (u cs : List Char) :
    unexpected (joinPairs (u ++ c :: cs)) (joinPairs u).length = unexpected (u ++ c :: cs) u.length := by
  have hc : (c :: cs).head? ≠ some '\n' := by simpa using hn
  have hdrop : (joinPairs (u ++ c :: cs)).drop (joinPairs u).length = c :: joinPairs cs := by
    rw [joinPairs_append hc, List.drop_left, keepsLine_joinPairs.cons hn hr]
  rw [unexpected, unexpected, ofOffset_joinPairs hc, hdrop, List.drop_left]
  dsimp only
  rw [Token.scan_keepsLine keepsLine_joinPairs]

/-- A token is refused at a character that belongs to no line end, and so do those before it. -/
theorem refused_inside {onLine : Bool} {c : Char} {cs rest : List Char} {t : Token} {s : State}
    {taken : Nat} (hc : ¬ Token.isBlank c) (h : Token.scan onLine c cs = (t, rest))
    (hs : s.step t = .error taken) :
    ∃ front x xs, c :: cs = front ++ x :: xs ∧ front.length = taken ∧ '\n' ∉ front ∧ x ≠ '\n' ∧
      x ≠ '\r' := by
  obtain rfl | ⟨t', s', x, xs, -, ht, htext, rfl⟩ := State.step_error hs
  · exact ⟨[], c, cs, rfl, rfl, List.not_mem_nil, Token.ne_of_not_isBlank hc⟩
  · have hcs := Token.text_scan onLine c cs
    rw [h, htext, List.append_assoc] at hcs
    refine ⟨t'.text, x, xs ++ rest, hcs.symm, rfl, ?_⟩
    obtain ⟨rfl, rfl⟩ | ⟨rfl, text, rfl⟩ := ht
    · obtain ⟨rfl, -⟩ : '>' = x ∧ [] = xs := by simpa [Token.text] using htext
      decide
    · obtain ⟨⟨d, v, hd, -, hv⟩, -⟩ := Token.spelled_of_scan h fun _ => Token.noConfusion
      have hx : Token.isWordPart x := by
        apply hv
        have htext : d :: v = ['f', 'r', 'o', 'm'] ++ x :: xs := hd.symm.trans htext
        simp [(List.cons.inj htext).2]
      refine ⟨by decide, ?_, ?_⟩
      · intro hn
        rw [hn] at hx
        exact absurd hx (by decide)
      · intro hr
        rw [hr] at hx
        exact absurd hx (by decide)

theorem unexpected_moved {l : Lexeme} {s : State} {taken : Nat} (h : l ∈ Lexeme.scan text)
    (hs : s.step l.token = .error taken) :
    unexpected (joinPairs text) ((Lexeme.moved text l).offset + taken) =
      unexpected text (l.offset + taken) := by
  obtain ⟨before, c, cs, rest, onLine, rfl, ho, ho', hc, hscan⟩ := Lexeme.moved_place h
  obtain ⟨front, x, xs, hcs, rfl, hfront, hn, hr⟩ := refused_inside hc hscan hs
  have hhead : front.head? ≠ some '\n' := fun hf => hfront (List.mem_of_mem_head? hf)
  have hjoin := unexpected_joinPairs hn hr (before ++ front) xs
  rw [joinPairs_append hhead, joinPairs_eq_self hfront, List.length_append, List.length_append,
    List.append_assoc, ← hcs] at hjoin
  rw [← ho, ← ho']
  exact hjoin

theorem faultError_joinPairs {fault : Fault}
    (h : Surface.parse ((Lexeme.scan text).map Lexeme.token) = .error fault) :
    faultError (joinPairs text) (Lexeme.scan (joinPairs text)) fault =
      faultError text (Lexeme.scan text) fault := by
  rw [Lexeme.scan_joinPairs]
  obtain ⟨us, t, ts, s, taken, ht, -, hs, rfl⟩ | ⟨s, -, -, rfl⟩ := run_eq_error h
  · obtain ⟨ls, ms, hl, rfl, hms⟩ := List.map_eq_append_iff.1 ht
    obtain ⟨l, ms, rfl, rfl, -⟩ := List.map_eq_cons_iff.1 hms
    have hmem : l ∈ Lexeme.scan text := by simp [hl]
    have hplace : (Lexeme.scan text)[ls.length]? = some l := by simp [hl]
    simp only [faultError, Nat.zero_add, List.length_map, List.getElem?_map, hplace, Option.map_some,
      Option.getD_some]
    exact unexpected_moved hmem hs
  · simp only [faultError, List.getLast?_map]
    rw [ofOffset_moved fun l => List.mem_of_getLast?]

theorem surface_joinPairs (text : List Char) : surface (joinPairs text) = surface text := by
  simp only [surface, Lexeme.tokens_joinPairs]
  cases h : Surface.parse ((Lexeme.scan text).map Lexeme.token) with
  | ok ss => rfl
  | error fault => exact congrArg Except.error (faultError_joinPairs h)

theorem defectError_joinPairs (text : List Char) (defect : Defect) :
    defectError (joinPairs text) (Lexeme.scan (joinPairs text)) defect =
      defectError text (Lexeme.scan text) defect := by
  cases defect with
  | literal literal fault =>
    have hfaulty : isFaultyString ∘ Lexeme.moved text = isFaultyString := rfl
    simp only [defectError, Lexeme.scan_joinPairs, List.find?_map, hfaulty]
    rw [ofOffset_moved fun l => List.mem_of_find?_eq_some]
  | target kind => rfl
  | longInteger => rfl

/-- A source says the same with line feeds in place of its pairs of carriage return and line feed: the
same program, or the same error at the same line and column. So it does as read from a file, if no
carriage return in it stands alone. -/
theorem parse_line_ends (source : String) :
    parse (String.ofList (joinPairs source.toList)) = parse source ∧
      ((∀ u v, source.toList = u ++ '\r' :: v → v.head? = some '\n') →
        parse (String.ofList (normalize source.toList)) = parse source) := by
  have hdefect : defectError (joinPairs source.toList) (Lexeme.scan (joinPairs source.toList)) =
      defectError source.toList (Lexeme.scan source.toList) :=
    funext (defectError_joinPairs source.toList)
  have hjoin : parse (String.ofList (joinPairs source.toList)) = parse source := by
    rw [parse, parse, String.toList_ofList, surface_joinPairs, hdefect]
  refine ⟨hjoin, fun hpairs => ?_⟩
  rw [normalize_eq_joinPairs hpairs, hjoin]

theorem parse_line_ends_unclosed :
    (∀ u v, "f\r\n(x) => \"y\r\n".toList = u ++ '\r' :: v → v.head? = some '\n') ∧
      parse "f\r\n(x) => \"y\r\n" = .error (.unexpectedCharacter '"' ⟨2, 8⟩) ∧
      parse (String.ofList (joinPairs "f\r\n(x) => \"y\r\n".toList)) =
        .error (.unexpectedCharacter '"' ⟨2, 8⟩) ∧
      parse (String.ofList (normalize "f\r\n(x) => \"y\r\n".toList)) =
        .error (.unexpectedCharacter '"' ⟨2, 8⟩) := by
  have h : parse "f\r\n(x) => \"y\r\n" = .error (.unexpectedCharacter '"' ⟨2, 8⟩) := by cbv
  have hpairs : ∀ u v, "f\r\n(x) => \"y\r\n".toList = u ++ '\r' :: v → v.head? = some '\n' := by
    intro u v huv
    simp [List.cons_eq_append_iff] at huv
    grind
  obtain ⟨hjoin, hnormal⟩ := parse_line_ends "f\r\n(x) => \"y\r\n"
  exact ⟨hpairs, h, hjoin.trans h, (hnormal hpairs).trans h⟩

end Source
end AwaitScript
