import AwaitScript.Proofs.Traversal
import AwaitScript.Source.Program

/-! A line feed ends the statement before it. A text is cut into tokens line by line, and a program is
read in the same way wherever statements are read; so a text below another one says what it says by
itself. -/
namespace AwaitScript

namespace Token

/-- Nothing more stands on the line; a carriage return before the line feed does not count. -/
def endsLine : List Char → Bool
  | [] | '\n' :: _ | '\r' :: '\n' :: _ => true
  | _ => false

def KeepsLine (f : List Char → List Char) : Prop :=
  ∀ u, (endsLine u ∧ endsLine (f u)) ∨ ∃ c v, c ≠ '\n' ∧ u = c :: v ∧ f u = c :: f v

theorem takeWhile_endsLine {p : Char → Bool} (hn : p '\n' = false) (hr : p '\r' = false) {u : List Char}
    (hu : endsLine u) : u.takeWhile p = [] ∧ u.dropWhile p = u := by
  unfold endsLine at hu
  split at hu
  · simp
  · simp [hn]
  · simp [hr]
  · cases hu

theorem scanString_endsLine {u : List Char} (hu : endsLine u) :
    scanString u = none ∧ scanString ('\\' :: u) = none := by
  unfold endsLine at hu
  split at hu
  · exact ⟨rfl, rfl⟩
  · exact ⟨rfl, rfl⟩
  · exact ⟨rfl, rfl⟩
  · cases hu

theorem scanNumber_whole {c : Char} {u : List Char}
    (h : ∀ d tail, u.dropWhile DecimalDigit.isDigit = '.' :: d :: tail → ¬ DecimalDigit.isDigit d) :
    scanNumber c u = (int (String.ofList (c :: u.takeWhile DecimalDigit.isDigit)),
      u.dropWhile DecimalDigit.isDigit) := by
  unfold scanNumber
  split
  · next d tail he => rw [if_neg (h d tail he), he]
  · rfl

theorem scanNumber_point {c d : Char} {u tail : List Char}
    (h : u.dropWhile DecimalDigit.isDigit = '.' :: d :: tail) (hd : DecimalDigit.isDigit d) :
    scanNumber c u = (float (String.ofList (c :: u.takeWhile DecimalDigit.isDigit))
      (String.ofList (d :: tail.takeWhile DecimalDigit.isDigit)),
      tail.dropWhile DecimalDigit.isDigit) := by
  unfold scanNumber
  rw [h]
  exact if_pos hd

section

variable {f : List Char → List Char} (hf : KeepsLine f)
include hf

theorem KeepsLine.cons {c : Char} (hn : c ≠ '\n') (hr : c ≠ '\r') (v : List Char) :
    f (c :: v) = c :: f v := by
  obtain ⟨hu, -⟩ | ⟨d, w, -, hu, h⟩ := hf (c :: v)
  · simp [endsLine, hn, hr] at hu
  · cases hu
    exact h

theorem KeepsLine.of_cons {c : Char} (hn : c ≠ '\n') (hr : c ≠ '\r') {u w : List Char}
    (h : f u = c :: w) : ∃ v, u = c :: v ∧ w = f v := by
  obtain ⟨-, hu⟩ | ⟨d, v, -, rfl, hu⟩ := hf u
  · rw [h] at hu
    simp [endsLine, hn, hr] at hu
  · obtain ⟨rfl, rfl⟩ := List.cons.inj (h.symm.trans hu)
    exact ⟨v, rfl, rfl⟩

theorem takeWhile_keepsLine {p : Char → Bool} (hn : p '\n' = false) (hr : p '\r' = false) (u : List Char) :
    (f u).takeWhile p = u.takeWhile p ∧ (f u).dropWhile p = f (u.dropWhile p) := by
  induction u with
  | nil =>
    obtain ⟨-, hf⟩ | ⟨c, v, -, hu, -⟩ := hf []
    · exact takeWhile_endsLine hn hr hf
    · cases hu
  | cons c u ih =>
    obtain ⟨hu, hf⟩ | ⟨d, v, -, hu, hf⟩ := hf (c :: u)
    · rw [(takeWhile_endsLine hn hr hu).1, (takeWhile_endsLine hn hr hu).2]
      exact takeWhile_endsLine hn hr hf
    · obtain ⟨rfl, rfl⟩ := List.cons.inj hu
      by_cases hc : p c
      · rw [hf, List.takeWhile_cons_of_pos hc, List.takeWhile_cons_of_pos hc,
          List.dropWhile_cons_of_pos hc, List.dropWhile_cons_of_pos hc, ih.1, ih.2]
        exact ⟨rfl, rfl⟩
      · rw [List.takeWhile_cons_of_neg hc, List.dropWhile_cons_of_neg hc, hf,
          List.takeWhile_cons_of_neg hc, List.dropWhile_cons_of_neg hc]
        exact ⟨rfl, rfl⟩

/- A string that its line does not close is none, so the next line cannot complete it. -/
theorem scanString_keepsLine (u : List Char) :
    scanString (f u) = (scanString u).map fun p => (p.1, f p.2) := by
  induction hn : u.length using Nat.strongRecOn generalizing u with
  | ind n ih =>
    subst hn
    obtain ⟨hu, hfu⟩ | ⟨c, v, hc, rfl, hfu⟩ := hf u
    · rw [(scanString_endsLine hu).1, (scanString_endsLine hfu).1]
      rfl
    rw [hfu]
    by_cases hq : c = '"'
    · subst hq
      rfl
    by_cases hb : c = '\\'
    · subst hb
      obtain ⟨hv, hfv⟩ | ⟨d, w, hd, rfl, hfv⟩ := hf v
      · rw [(scanString_endsLine hv).2, (scanString_endsLine hfv).2]
        rfl
      · have hw := ih w.length (by simp) w rfl
        rw [hfv, scanString, scanString, hw]
        · simp [Option.map_map, Function.comp_def]
        · exact hd
        · exact hd
    · have hv := ih v.length (by simp) v rfl
      rw [scanString, scanString, hv]
      · simp [Option.map_map, Function.comp_def]
      all_goals simp_all

theorem scanNumber_keepsLine (c : Char) (u : List Char) :
    scanNumber c (f u) = ((scanNumber c u).1, f (scanNumber c u).2) := by
  have hline {d : Char} (hd : DecimalDigit.isDigit d) : d ≠ '\n' ∧ d ≠ '\r' := by
    constructor <;> intro h <;> rw [h] at hd <;> revert hd <;> decide
  have htake (u : List Char) := takeWhile_keepsLine hf (p := DecimalDigit.isDigit) (by decide) (by decide) u
  by_cases hpoint : ∃ d tail, u.dropWhile DecimalDigit.isDigit = '.' :: d :: tail ∧ DecimalDigit.isDigit d
  · obtain ⟨d, tail, hu, hd⟩ := hpoint
    have hfu : (f u).dropWhile DecimalDigit.isDigit = '.' :: d :: f tail := by
      rw [(htake u).2, hu, hf.cons (by decide) (by decide), hf.cons (hline hd).1 (hline hd).2]
    rw [scanNumber_point hu hd, scanNumber_point hfu hd, (htake u).1, (htake tail).1, (htake tail).2]
  · have hu : ∀ d tail, u.dropWhile DecimalDigit.isDigit = '.' :: d :: tail → ¬ DecimalDigit.isDigit d :=
      fun d tail h hd => hpoint ⟨d, tail, h, hd⟩
    have hfu : ∀ d tail, (f u).dropWhile DecimalDigit.isDigit = '.' :: d :: tail →
        ¬ DecimalDigit.isDigit d := by
      intro d tail h hd
      rw [(htake u).2] at h
      obtain ⟨v, hv, h⟩ := hf.of_cons (by decide) (by decide) h
      obtain ⟨w, rfl, -⟩ := hf.of_cons (hline hd).1 (hline hd).2 h.symm
      exact hu d w hv hd
    rw [scanNumber_whole hu, scanNumber_whole hfu, (htake u).1, (htake u).2]

theorem scanMark_keepsLine (afterOperand : Bool) (c : Char) (u : List Char) :
    scanMark afterOperand c (f u) =
      ((scanMark afterOperand c u).1, f (scanMark afterOperand c u).2) := by
  fun_cases scanMark afterOperand c u
  case case9 u =>
    rw [hf.cons (by decide) (by decide)]
    rfl
  case case10 h =>
    rw [scanMark]
    intro v hv
    obtain ⟨w, hw, -⟩ := hf.of_cons (by decide) (by decide) hv
    exact h w hw
  case case11 h => simp [scanMark, scanString_keepsLine hf, h]
  case case12 h => simp [scanMark, scanString_keepsLine hf, h]
  case case13 => simp_all [scanMark]
  all_goals rfl

/-- The first token of a text depends on its line only. -/
theorem scan_keepsLine (afterOperand : Bool) (c : Char) (u : List Char) :
    scan afterOperand c (f u) = ((scan afterOperand c u).1, f (scan afterOperand c u).2) := by
  have hw := takeWhile_keepsLine hf (p := isWordPart) (by decide) (by decide) u
  unfold scan
  split
  · rw [hw.1, hw.2]
  split
  · exact scanNumber_keepsLine hf c u
  · exact scanMark_keepsLine hf afterOperand c u

end

theorem keepsLine_append_newline (v : List Char) : KeepsLine (· ++ '\n' :: v) := by
  intro u
  cases u with
  | nil => exact .inl ⟨rfl, rfl⟩
  | cons c u =>
    by_cases hc : c = '\n'
    · subst hc
      exact .inl ⟨rfl, rfl⟩
    · exact .inr ⟨c, u, hc, rfl, rfl⟩

end Token

namespace Lexeme

theorem tokens_scanFrom (afterOperand : Bool) (offset offset' : Nat) (text : List Char) :
    (scanFrom afterOperand offset text).map token = (scanFrom afterOperand offset' text).map token := by
  fun_induction scanFrom afterOperand offset text generalizing offset' with
  | case1 => rw [scanFrom]
  | case2 afterOperand offset c cs hc ih =>
    rw [scanFrom, if_pos hc]
    exact ih _
  | case3 afterOperand offset c cs hc scanned ih =>
    rw [scanFrom, if_neg hc, List.map_cons, List.map_cons]
    exact congrArg _ (ih _)

theorem tokens_append_newline (afterOperand : Bool) (offset offset' : Nat) (u v : List Char) :
    (scanFrom afterOperand offset (u ++ '\n' :: v)).map token =
      (scanFrom afterOperand offset u).map token ++ (scanFrom false offset' v).map token := by
  fun_induction scanFrom afterOperand offset u with
  | case1 afterOperand offset =>
    rw [List.nil_append, scanFrom, if_pos (by decide)]
    simpa using tokens_scanFrom false _ offset' v
  | case2 afterOperand offset c cs hc ih =>
    rw [List.cons_append, scanFrom, if_pos hc]
    exact ih
  | case3 afterOperand offset c cs hc scanned ih =>
    rw [List.cons_append, scanFrom, if_neg hc]
    simp only [Token.scan_keepsLine (Token.keepsLine_append_newline v), List.map_cons, List.cons_append]
    exact congrArg _ ih

end Lexeme

namespace Surface

namespace State

def reads (s : State) : List Token → Option State
  | [] => some s
  | token :: tokens =>
    match s.step token with
    | .ok s => s.reads tokens
    | .error _ => none

theorem reads_cons {s s' : State} {token : Token} (h : s.step token = .ok s') (tokens : List Token) :
    s.reads (token :: tokens) = s'.reads tokens := by
  rw [reads, h]

theorem reads_append (s : State) (us ts : List Token) :
    s.reads (us ++ ts) = (s.reads us).bind fun s => s.reads ts := by
  induction us generalizing s with
  | nil => rfl
  | cons u us ih =>
    rw [List.cons_append, reads, reads]
    split
    · exact ih _
    · rfl

end State

theorem run_eq_ok_iff {s : State} {index : Nat} {tokens : List Token} {ss : List Statement} :
    run s index tokens = .ok ss ↔ ∃ s', s.reads tokens = some s' ∧ s'.finish? = some ss := by
  induction tokens generalizing s index with
  | nil => cases h : s.finish? <;> simp [run, State.reads, h]
  | cons token tokens ih =>
    cases h : s.step token with
    | ok s' => simp only [run, State.reads, h, ih]
    | error taken => simp [run, State.reads, h]

/-- A place where statements are read: at the top of a program or in a body, after some statements, of
which the last one comes first. -/
structure Place where
  frames : List Frame
  statements : List Statement
  base : frames = [] ∨ ∃ parameters outer rest, frames = .body parameters outer :: rest

namespace Place
open State

def top (statements : List Statement) : Place := ⟨[], statements, .inl rfl⟩

variable (p : Place)

/- The statements of the outermost level are those of the place, wherever they are kept. -/
def inside : List Frame → List Statement → List Frame × List Statement
  | [], statements => (p.frames, statements ++ p.statements)
  | .body parameters outer :: frames, statements =>
    (.body parameters (inside frames outer).2 :: (inside frames outer).1, statements)
  | frame :: frames, statements =>
    (frame :: (inside frames statements).1, (inside frames statements).2)

def state (s : State) : State :=
  ⟨s.mode, (p.inside s.frames s.statements).1, (p.inside s.frames s.statements).2⟩

theorem inside_cons (frames : List Frame) (s : Statement) (statements : List Statement) :
    p.inside frames (s :: statements) =
      ((p.inside frames statements).1, s :: (p.inside frames statements).2) := by
  induction frames with
  | nil => rfl
  | cons frame frames ih =>
    cases frame with
    | body parameters outer => rfl
    | _ => simp only [inside, ih]

theorem settle_base (e : Expression) : settle e p.frames = (e, p.frames) := by
  obtain h | ⟨parameters, outer, rest, h⟩ := p.base
  · rw [h]
    rfl
  · rw [h]
    rfl

theorem settle_inside (e : Expression) (frames : List Frame) (statements : List Statement) :
    settle e (p.inside frames statements).1 =
        ((settle e frames).1, (p.inside (settle e frames).2 statements).1) ∧
      (p.inside (settle e frames).2 statements).2 = (p.inside frames statements).2 := by
  fun_induction settle e frames with
  | case1 e target frames ih => exact ih
  | case2 e frames h =>
    refine ⟨?_, rfl⟩
    cases frames with
    | nil => exact p.settle_base e
    | cons frame frames =>
      cases frame with
      | assignment target => exact (h target frames rfl).elim
      | _ => rfl

section

variable {frames : List Frame} {statements : List Statement} {token : Token} {s s' : State}

theorem beginOperand_inside (h : beginOperand frames statements token = .ok s') :
    beginOperand (p.inside frames statements).1 (p.inside frames statements).2 token =
      .ok (p.state s') := by
  unfold beginOperand at h
  split at h <;> cases h <;> rfl

theorem beginStatement_inside (h : beginStatement frames statements token = .ok s') :
    beginStatement (p.inside frames statements).1 (p.inside frames statements).2 token =
      .ok (p.state s') := by
  unfold beginStatement at h
  split at h
  · split at h
    · cases h
      rfl
    · cases h
  · next text =>
    rw [beginStatement]
    split at h
    · next ht =>
      cases h
      rw [if_pos ht]
      rfl
    · next ht =>
      rw [if_neg ht]
      exact p.beginOperand_inside h
  · next hb hw =>
    rw [beginStatement]
    · exact p.beginOperand_inside h
    · exact hb
    · exact hw

theorem beginItem_inside (h : beginItem frames statements token = .ok s') :
    beginItem (p.inside frames statements).1 (p.inside frames statements).2 token =
      .ok (p.state s') := by
  cases frames with
  | nil =>
    have h' : beginOperand [] statements token = .ok s' := by
      cases token <;> exact h
    have hi := p.beginOperand_inside h'
    simp only [inside] at hi ⊢
    obtain hb | ⟨parameters, outer, rest, hb⟩ := p.base
    · rw [hb] at hi ⊢
      cases token <;> exact hi
    · rw [hb] at hi ⊢
      cases token <;> exact hi
  | cons frame frames =>
    cases frame <;> cases token <;> cases h <;> rfl

theorem endExpression_inside {e : Expression} (h : endExpression e frames statements token = .ok s') :
    endExpression e (p.inside frames statements).1 (p.inside frames statements).2 token =
      .ok (p.state s') := by
  cases frames with
  | nil =>
    have h' : beginStatement [] (.expression e :: statements) token = .ok s' := h
    have hi := p.beginStatement_inside h'
    simp only [inside] at hi ⊢
    obtain hb | ⟨parameters, outer, rest, hb⟩ := p.base
    · rw [hb] at hi ⊢
      exact hi
    · rw [hb] at hi ⊢
      exact hi
  | cons frame frames =>
    cases frame with
    | body parameters outer =>
      have h' : beginStatement (.body parameters outer :: frames) (.expression e :: statements) token =
          .ok s' := h
      exact p.beginStatement_inside h'
    | assignment target => cases token <;> cases h
    | _ => cases token <;> cases h <;> rfl

theorem afterOperand_inside {e : Expression} (h : afterOperand e frames statements token = .ok s') :
    afterOperand e (p.inside frames statements).1 (p.inside frames statements).2 token =
      .ok (p.state s') := by
  obtain ⟨hs, hss⟩ := p.settle_inside e frames statements
  unfold afterOperand at h ⊢
  split at h
  · cases h
    rfl
  · cases h
    rfl
  · cases h
  · simp only [hs, ← hss]
    exact p.endExpression_inside h

/-- What is read at the start of a program is read in the same way at a place. -/
theorem step_inside (h : s.step token = .ok s') : (p.state s).step token = .ok (p.state s') := by
  obtain ⟨mode, frames, statements⟩ := s
  cases mode with
  | statement => exact p.beginStatement_inside h
  | operand => exact p.beginItem_inside h
  | operator e => exact p.afterOperand_inside h
  | importFrom name =>
    cases token with
    | word text =>
      simp only [step, state] at h ⊢
      split at h
      · next ht =>
        cases h
        rw [if_pos ht]
      · split at h <;> cases h
    | _ => cases h
  | importPath name =>
    cases token with
    | string path =>
      cases h
      simp only [step, state, inside_cons]
    | _ => cases h
  | _ => cases token <;> cases h <;> rfl

theorem reads_inside {tokens : List Token} (h : s.reads tokens = some s') :
    (p.state s).reads tokens = some (p.state s') := by
  induction tokens generalizing s with
  | nil =>
    cases h
    rfl
  | cons token tokens ih =>
    rw [reads] at h
    split at h
    · next s₁ hs =>
      rw [reads_cons (p.step_inside hs)]
      exact ih h
    · cases h

end

end Place

namespace State
open Place

variable {s s' : State} {ss : List Statement}

theorem finish_inside {before : List Statement} (h : s.finish? = some ss) :
    ((top before).state s).finish? = some (before.reverse ++ ss) := by
  obtain ⟨mode, frames, statements⟩ := s
  cases mode with
  | statement =>
    cases frames with
    | nil =>
      cases h
      simp [finish?, state, inside, top]
    | cons frame frames => cases h
  | operator e =>
    obtain ⟨hs, hss⟩ := (top before).settle_inside e frames statements
    simp only [finish?, state, hs, ← hss] at h ⊢
    generalize settle e frames = settled at h
    obtain ⟨e', frames'⟩ := settled
    cases frames' with
    | nil =>
      cases h
      simp [inside, top]
    | cons frame frames' => cases h
  | _ => cases h

/-- After a program the next statement starts as at the top, below the statements of the program. -/
theorem step_after {token : Token} (hs : s.finish? = some ss) (h : start.step token = .ok s') :
    s.step token = .ok ((top ss.reverse).state s') := by
  have hstart : beginStatement [] [] token = .ok s' := h
  have hbegin : beginStatement [] ss.reverse token = .ok ((top ss.reverse).state s') :=
    (top ss.reverse).beginStatement_inside hstart
  obtain ⟨mode, frames, statements⟩ := s
  cases mode with
  | statement =>
    cases frames with
    | nil =>
      obtain rfl : statements.reverse = ss := Option.some.inj hs
      rwa [List.reverse_reverse] at hbegin ⊢
    | cons frame frames => cases hs
  | operator e =>
    have hend : endExpression (settle e frames).1 (settle e frames).2 statements token =
        beginStatement [] ss.reverse token := by
      simp only [finish?] at hs
      generalize settle e frames = settled at hs
      obtain ⟨e', frames'⟩ := settled
      cases frames' with
      | nil =>
        cases hs
        rw [List.reverse_reverse]
        rfl
      | cons frame frames' => cases hs
    -- no statement starts with what could go on with an operand
    cases token with
    | callParen | equals | arrow => cases h
    | _ => exact hend.trans hbegin
  | _ => cases hs

theorem reads_after {tokens : List Token} {ts : List Statement} (hs : s.finish? = some ss)
    (hr : start.reads tokens = some s') (ht : s'.finish? = some ts) :
    ∃ s'', s.reads tokens = some s'' ∧ s''.finish? = some (ss ++ ts) := by
  cases tokens with
  | nil =>
    cases hr
    obtain rfl : [] = ts := Option.some.inj ht
    exact ⟨s, rfl, by rw [hs, List.append_nil]⟩
  | cons token tokens =>
    rw [reads] at hr
    split at hr
    · next s₁ hstep =>
      refine ⟨_, (reads_cons (step_after hs hstep) tokens).trans (reads_inside _ hr), ?_⟩
      rw [finish_inside ht, List.reverse_reverse]
    · cases hr

end State

theorem parse_append {us ts : List Token} {ss ss' : List Statement} (hu : parse us = .ok ss)
    (ht : parse ts = .ok ss') : parse (us ++ ts) = .ok (ss ++ ss') := by
  obtain ⟨s, hs, hf⟩ := run_eq_ok_iff.1 hu
  obtain ⟨s', hs', hf'⟩ := run_eq_ok_iff.1 ht
  obtain ⟨s'', hr, hf''⟩ := State.reads_after hf hs' hf'
  refine run_eq_ok_iff.2 ⟨s'', ?_, hf''⟩
  rw [State.reads_append, hs]
  exact hr

theorem elaborateStatements_append {ss ss' : List Statement} {ns ns' : List Node}
    (h : elaborateStatements ss = .ok ns) (h' : elaborateStatements ss' = .ok ns') :
    elaborateStatements (ss ++ ss') = .ok (ns ++ ns') := by
  induction ss generalizing ns with
  | nil =>
    cases h
    exact h'
  | cons s ss ih =>
    rw [elaborateStatements] at h
    obtain ⟨n, hn, h⟩ := bind_eq_ok_iff.1 h
    obtain ⟨rest, hrest, h⟩ := bind_eq_ok_iff.1 h
    cases h
    rw [List.cons_append, elaborateStatements, hn, ih hrest]
    rfl

end Surface

namespace Source

theorem parse_eq_ok_iff {source : String} {program : Program} :
    parse source = .ok program ↔
      ∃ ss, surface source.toList = .ok ss ∧ Surface.elaborateStatements ss = .ok program := by
  unfold parse
  cases surface source.toList with
  | error e => simp
  | ok ss => simp [mapError_eq_ok_iff]

theorem surface_append_newline {u v : List Char} {ss ss' : List Surface.Statement}
    (hu : surface u = .ok ss) (hv : surface v = .ok ss') :
    surface (u ++ '\n' :: v) = .ok (ss ++ ss') := by
  apply mapError_eq_ok_iff.2
  rw [Lexeme.scan, Lexeme.tokens_append_newline false 0 0]
  exact Surface.parse_append (mapError_eq_ok_iff.1 hu) (mapError_eq_ok_iff.1 hv)

/-- A text below another one: if both are programs, the whole is the program with the statements of the
first and then those of the second. -/
theorem parse_append_newline {a b : String} {p q : Program} (ha : parse a = .ok p)
    (hb : parse b = .ok q) : parse (a ++ "\n" ++ b) = .ok (p ++ q) := by
  obtain ⟨ss, hs, hp⟩ := parse_eq_ok_iff.1 ha
  obtain ⟨ss', hs', hq⟩ := parse_eq_ok_iff.1 hb
  refine parse_eq_ok_iff.2 ⟨ss ++ ss', ?_, Surface.elaborateStatements_append hp hq⟩
  simpa using surface_append_newline hs hs'

theorem parse_parenthesis_below :
    parse "import from from \"m\"\n\x7b f \x7d = g" =
        .ok [.imports "from" [.scalar 'm'], .destructuredAssignment ["f"] (.identifier "g")] ∧
      parse "(true) => \x7b [f] \x7d" =
        .ok [.function [[.identifier "true"]] [.array [.identifier "f"]]] ∧
      parse ("import from from \"m\"\n\x7b f \x7d = g" ++ "\n" ++ "(true) => \x7b [f] \x7d") =
        .ok [.imports "from" [.scalar 'm'], .destructuredAssignment ["f"] (.identifier "g"),
          .function [[.identifier "true"]] [.array [.identifier "f"]]] := by
  have ha : parse "import from from \"m\"\n\x7b f \x7d = g" =
      .ok [.imports "from" [.scalar 'm'], .destructuredAssignment ["f"] (.identifier "g")] := by cbv
  have hb : parse "(true) => \x7b [f] \x7d" =
      .ok [.function [[.identifier "true"]] [.array [.identifier "f"]]] := by cbv
  exact ⟨ha, hb, parse_append_newline ha hb⟩

end Source
end AwaitScript
