import AwaitScript.Proofs.SpelledTokens

/-! Where the tokens of a text stand. A lexeme is found at its offset, and between lexemes there are
blanks only. What follows a token matters to it only as far as the token could take it in; so a text that
is cut between two tokens, or goes on there with a blank, keeps its tokens before the cut. -/
namespace AwaitScript

namespace Token

section

variable {t : Token} {u v rest : List Char}

theorem goesOn_of_append (h : t.goesOn (u ++ v) = false) : t.goesOn u = false := by
  cases u with
  | nil => cases t <;> rfl
  | cons c u =>
    cases t with
    | int digits =>
      by_cases hc : c = '.'
      · subst hc
        cases u with
        | nil => exact show DecimalDigit.isDigit '.' = false by decide
        | cons d u => exact h
      · simpa [goesOn, hc] using h
    | _ => exact h

theorem goesOn_append_ends (h : t.goesOn u = false) (hr : Ends rest) : t.goesOn (u ++ rest) = false := by
  cases u with
  | nil => exact hr.not_goesOn t
  | cons c u =>
    cases t with
    | int digits =>
      by_cases hc : c = '.'
      · subst hc
        cases u with
        | cons d u => exact h
        | nil =>
          -- the point stays outside of the number if no digit comes after it
          cases rest with
          | nil => exact h
          | cons d rest => simpa [goesOn] using hr.not (p := DecimalDigit.isDigit) (by decide) d rfl
      · simpa [goesOn, hc] using h
    | _ => exact h

theorem dropWhile_stop {p : Char → Bool} {cs : List Char} {x : Char}
    (h : cs.dropWhile p = x :: rest) : p x = false := by
  have := List.head?_dropWhile_not p cs
  rwa [h] at this

theorem isDigits_takeWhile {c : Char} (hc : DecimalDigit.isDigit c) (cs : List Char) :
    Grammar.IsDigits (String.ofList (c :: cs.takeWhile DecimalDigit.isDigit)).toList := by
  rw [String.toList_ofList]
  refine ⟨List.cons_ne_nil _ _, ?_⟩
  intro x hx
  obtain rfl | hx := List.mem_cons.1 hx
  · exact hc
  · exact List.mem_takeWhile_imp hx

theorem spelled_scanNumber {c : Char} (hc : DecimalDigit.isDigit c) (cs : List Char) :
    (scanNumber c cs).1.IsSpelled ∧ (scanNumber c cs).1.goesOn (scanNumber c cs).2 = false := by
  unfold scanNumber
  split
  · next d tail he =>
    split
    · next hd =>
      refine ⟨⟨isDigits_takeWhile hc cs, isDigits_takeWhile hd tail⟩, ?_⟩
      cases hr : tail.dropWhile DecimalDigit.isDigit with
      | nil => rfl
      | cons x rest => exact dropWhile_stop hr
    · next hd => exact ⟨isDigits_takeWhile hc cs, by simpa [goesOn] using hd⟩
  · next hpoint =>
    refine ⟨isDigits_takeWhile hc cs, ?_⟩
    cases hr : cs.dropWhile DecimalDigit.isDigit with
    | nil => rfl
    | cons x rest =>
      have hx := dropWhile_stop hr
      by_cases hp : x = '.'
      · cases rest with
        | nil => simpa [goesOn] using hx
        | cons d rest => exact absurd (hp ▸ hr) (hpoint d rest)
      · simpa [goesOn, hp] using hx

theorem spelled_scanMark (afterOperand : Bool) (c : Char) (cs : List Char)
    (ht : ∀ x, (scanMark afterOperand c cs).1 ≠ stray x) :
    (scanMark afterOperand c cs).1.IsSpelled ∧
      (scanMark afterOperand c cs).1.goesOn (scanMark afterOperand c cs).2 = false ∧
      ((scanMark afterOperand c cs).1 = callParen → afterOperand = true) ∧
      ((scanMark afterOperand c cs).1 = openParen → afterOperand = false) := by
  revert ht
  fun_cases scanMark afterOperand c cs <;> intro ht
  case case1 => cases afterOperand <;> simp [IsSpelled, goesOn]
  case case10 harrow =>
    refine ⟨trivial, ?_, Token.noConfusion, Token.noConfusion⟩
    cases cs with
    | nil => rfl
    | cons d cs =>
      have hd : d ≠ '>' := fun hd => harrow cs (by rw [hd])
      simpa [goesOn] using hd
  case case11 body rest hs =>
    refine ⟨?_, rfl, Token.noConfusion, Token.noConfusion⟩
    rw [IsSpelled, String.toList_ofList]
    exact Grammar.isString_cons.2 (Grammar.scanString_iff.1 hs).1
  case case12 => exact absurd rfl (ht _)
  case case13 => exact absurd rfl (ht _)
  all_goals exact ⟨trivial, rfl, Token.noConfusion, Token.noConfusion⟩

theorem spelled_of_scan {afterOperand : Bool} {c : Char} {cs : List Char}
    (h : scan afterOperand c cs = (t, rest)) (ht : ∀ x, t ≠ stray x) :
    t.IsSpelled ∧ t.goesOn rest = false ∧ (t = callParen → afterOperand = true) ∧
      (t = openParen → afterOperand = false) := by
  unfold scan at h
  split at h
  · next hc =>
    cases h
    refine ⟨⟨c, _, String.toList_ofList, hc, fun x => List.mem_takeWhile_imp⟩, ?_, Token.noConfusion,
      Token.noConfusion⟩
    cases hr : cs.dropWhile isWordPart with
    | nil => rfl
    | cons x rest => exact dropWhile_stop hr
  split at h
  · next hc =>
    have hn := spelled_scanNumber hc cs
    have hp := Grammar.plain_scanNumber c cs
    rw [h] at hn hp
    refine ⟨hn.1, hn.2, ?_, ?_⟩
    · intro hcall
      exact absurd (congrArg Grammar.plain hcall) hp
    · intro hopen
      exact absurd (congrArg Grammar.plain hopen) hp
  · have hm := spelled_scanMark afterOperand c cs
    rw [h] at hm
    exact hm ht

theorem scan_replace {afterOperand : Bool} {c : Char} {cs : List Char}
    (h : scan afterOperand c cs = (t, rest)) (ht : ∀ x, t ≠ stray x) (hv : t.goesOn v = false) :
    ∃ tail, t.text = c :: tail ∧ scan afterOperand c (tail ++ v) = (t, v) := by
  obtain ⟨hs, -, hcall, hopen⟩ := spelled_of_scan h ht
  obtain ⟨d, tail, htext, -, hscan⟩ := scan_spelled hs hv hcall hopen
  have hd : c :: cs = d :: (tail ++ rest) := by
    have := text_scan afterOperand c cs
    rw [h] at this
    rw [← this, htext, List.cons_append]
  obtain ⟨rfl, -⟩ := List.cons.inj hd
  exact ⟨tail, htext, hscan⟩

theorem scan_line {c : Char} (hc : c ≠ '(') (afterOperand onLine : Bool) (cs : List Char) :
    scan onLine c cs = scan afterOperand c cs := by
  have hmark : scanMark onLine c cs = scanMark afterOperand c cs := by
    fun_cases scanMark afterOperand c cs
    case case1 => exact absurd rfl hc
    all_goals simp_all [scanMark]
  rw [scan, scan, hmark]

end
end Token

namespace Lexeme
open Token

variable {afterOperand : Bool} {offset : Nat} {text u v : List Char}

theorem scanFrom_blank {c : Char} (hc : isBlank c) (cs : List Char) :
    scanFrom afterOperand offset (c :: cs) = scanFrom (afterOperand && c ≠ '\n') (offset + 1) cs := by
  rw [scanFrom, if_pos hc]

theorem scanFrom_token {c : Char} (hc : ¬ isBlank c) (cs : List Char) :
    scanFrom afterOperand offset (c :: cs) =
      ⟨(Token.scan afterOperand c cs).1, offset⟩ ::
        scanFrom (Token.scan afterOperand c cs).1.endsOperand
          (offset + (Token.scan afterOperand c cs).1.text.length) (Token.scan afterOperand c cs).2 := by
  rw [scanFrom, if_neg hc]

theorem scanFrom_replace {c : Char} {cs x y : List Char} {t : Token} {rest : List Char}
    (hc : ¬ isBlank c) (h : Token.scan afterOperand c cs = (t, rest)) (ht : ∀ x, t ≠ .stray x)
    (hu : t.text ++ x = c :: u) (hy : t.goesOn (x ++ y) = false) :
    scanFrom afterOperand offset (c :: u ++ y) =
      ⟨t, offset⟩ :: scanFrom t.endsOperand (offset + t.text.length) (x ++ y) := by
  obtain ⟨tail, htail, hscan⟩ := scan_replace h ht hy
  rw [htail] at hu
  have hu : u ++ y = tail ++ (x ++ y) := by
    obtain ⟨-, rfl⟩ := List.cons.inj hu
    exact List.append_assoc tail x y
  rw [List.cons_append, scanFrom_token hc, hu, hscan]

theorem scanFrom_text {t : Token} (ht : t.IsSpelled) (hcall : t ≠ .callParen) (hopen : t ≠ .openParen) :
    scanFrom afterOperand offset t.text = [⟨t, offset⟩] := by
  obtain ⟨c, cs, htext, hc, hscan⟩ := scan_spelled ht (ends_nil.not_goesOn t)
    (fun h => absurd h hcall) (fun h => absurd h hopen)
  rw [List.append_nil] at hscan
  rw [htext, scanFrom_token (by simp [hc]), hscan, scanFrom]

theorem scanFrom_blanks {w : List Char} (hw : ∀ c ∈ w, isBlank c) (v : List Char) :
    scanFrom afterOperand offset (w ++ v) =
      scanFrom (afterOperand && decide ('\n' ∉ w)) (offset + w.length) v := by
  induction w generalizing afterOperand offset with
  | nil => simp
  | cons c w ih =>
    obtain ⟨hc, hw⟩ := List.forall_mem_cons.1 hw
    rw [List.cons_append, scanFrom_blank hc, ih hw, List.length_cons, Nat.add_right_comm, Nat.add_assoc]
    by_cases hn : c = '\n' <;> simp [hn, eq_comm]

theorem scanFrom_eq_nil (h : scanFrom afterOperand offset text = []) : ∀ c ∈ text, isBlank c := by
  fun_induction scanFrom afterOperand offset text with
  | case1 => simp
  | case2 afterOperand offset c cs hc ih => exact List.forall_mem_cons.2 ⟨hc, ih h⟩
  | case3 => cases h

theorem le_offset {l : Lexeme} (h : l ∈ scanFrom afterOperand offset text) : offset ≤ l.offset := by
  fun_induction scanFrom afterOperand offset text with
  | case1 => cases h
  | case2 afterOperand offset c cs hc ih =>
    have := ih h
    omega
  | case3 afterOperand offset c cs hc scanned ih =>
    obtain rfl | h := List.mem_cons.1 h
    · exact le_rfl
    · have := ih h
      omega

/-- A lexeme stands at its offset, and the lexemes after it are those of the text after it. -/
theorem scanFrom_split {l : Lexeme} {ms : List Lexeme}
    (h : l :: ms <:+ scanFrom afterOperand offset text) :
    ∃ before c cs rest onLine, text = before ++ c :: cs ∧ l.offset = offset + before.length ∧
      ¬ isBlank c ∧ Token.scan onLine c cs = (l.token, rest) ∧
      ms = scanFrom l.token.endsOperand (l.offset + l.token.text.length) rest := by
  fun_induction scanFrom afterOperand offset text with
  | case1 => simp at h
  | case2 afterOperand offset c cs hc ih =>
    obtain ⟨before, d, ds, rest, onLine, rfl, ho, hd, hscan, hms⟩ := ih h
    exact ⟨c :: before, d, ds, rest, onLine, rfl, by simp; omega, hd, hscan, hms⟩
  | case3 afterOperand offset c cs hc scanned ih =>
    obtain h | h := List.suffix_cons_iff.1 h
    · obtain ⟨rfl, rfl⟩ := List.cons.inj h
      exact ⟨[], c, cs, scanned.2, afterOperand, rfl, rfl, hc, rfl, rfl⟩
    · obtain ⟨before, d, ds, rest, onLine, hrest, ho, hd, hscan, hms⟩ := ih h
      have htext : c :: cs = scanned.1.text ++ before ++ d :: ds := by
        rw [List.append_assoc, ← hrest]
        exact (text_scan afterOperand c cs).symm
      exact ⟨_, d, ds, rest, onLine, htext, by simp; omega, hd, hscan, hms⟩

theorem scanFrom_line (h : ∀ l ∈ (scanFrom afterOperand offset text).head?, l.token.text ≠ ['('])
    (onLine : Bool) : scanFrom onLine offset text = scanFrom afterOperand offset text := by
  induction text generalizing afterOperand offset onLine with
  | nil => rw [scanFrom, scanFrom]
  | cons c cs ih =>
    by_cases hc : isBlank c
    · rw [scanFrom_blank hc] at h ⊢
      rw [scanFrom_blank hc]
      exact ih h _
    · rw [scanFrom_token hc] at h
      have hp : c ≠ '(' := by
        intro hp
        subst hp
        refine h _ rfl ?_
        cases afterOperand <;> rfl
      rw [scanFrom_token hc, scanFrom_token hc, scan_line hp afterOperand onLine]

/-- The first token, if it ends before a place, and what follows it up to that place; from there on the
text may go on in another way: with a part of what followed, and then nothing or a blank. -/
theorem scanFrom_first {c : Char} {t : Token} {rest : List Char} (hc : ¬ isBlank c)
    (h : Token.scan afterOperand c (u ++ v) = (t, rest)) (ht : ∀ x, t ≠ .stray x)
    (hlen : t.text.length ≤ (c :: u).length) :
    ∃ x, t.text ++ x = c :: u ∧ rest = x ++ v ∧ ∀ offset q r, q <+: v → Ends r →
      scanFrom afterOperand offset (c :: u ++ (q ++ r)) =
        ⟨t, offset⟩ :: scanFrom t.endsOperand (offset + t.text.length) (x ++ (q ++ r)) := by
  have htext : t.text ++ rest = c :: (u ++ v) := by
    rw [← text_scan afterOperand c (u ++ v), h]
  obtain ⟨x, hx⟩ : t.text <+: c :: u :=
    List.prefix_of_prefix_length_le ⟨rest, htext⟩ (List.prefix_append (c :: u) v) hlen
  obtain rfl : x ++ v = rest := by
    rw [← List.cons_append, ← hx, List.append_assoc] at htext
    exact (List.append_cancel_left htext).symm
  have hgoes := (spelled_of_scan h ht).2.1
  refine ⟨x, hx, rfl, fun offset q r hq hr => scanFrom_replace hc h ht hx ?_⟩
  obtain ⟨v', rfl⟩ := hq
  rw [← List.append_assoc] at hgoes ⊢
  exact goesOn_append_ends (goesOn_of_append hgoes) hr

theorem scanFrom_cut (h : ∀ l ∈ scanFrom afterOperand offset (u ++ v), l.offset < offset + u.length →
      l.offset + l.token.text.length ≤ offset + u.length ∧ ∀ x, l.token ≠ .stray x) :
    ∃ onLine, ∀ q r, q <+: v → Ends r →
      scanFrom afterOperand offset (u ++ (q ++ r)) =
        scanFrom afterOperand offset u ++ scanFrom onLine (offset + u.length) (q ++ r) := by
  induction hn : u.length using Nat.strongRecOn generalizing u afterOperand offset with
  | ind n ih =>
    subst hn
    cases u with
    | nil =>
      refine ⟨afterOperand, fun q r _ _ => ?_⟩
      rw [scanFrom.eq_def _ _ []]
      rfl
    | cons c u =>
      by_cases hc : isBlank c
      · rw [List.cons_append, scanFrom_blank hc] at h
        obtain ⟨onLine, hcut⟩ := ih u.length (by simp) (fun l hl ho => by
          have := h l hl (by simp; omega)
          simpa [Nat.add_assoc, Nat.add_comm 1] using this) rfl
        refine ⟨onLine, fun q r hq hr => ?_⟩
        rw [List.cons_append, scanFrom_blank hc, scanFrom_blank hc, hcut q r hq hr, List.length_cons,
          Nat.add_right_comm, Nat.add_assoc]
      · cases hscan : Token.scan afterOperand c (u ++ v) with
        | mk t rest =>
          have hpos := List.length_pos_iff.2 (text_ne_nil afterOperand c (u ++ v))
          rw [hscan] at hpos
          rw [List.cons_append, scanFrom_token hc, hscan] at h
          dsimp only at h hpos
          obtain ⟨hlen, hstray⟩ := h _ List.mem_cons_self (by simp)
          obtain ⟨x, hx, rfl, hfirst⟩ := scanFrom_first hc hscan hstray (by simpa using hlen)
          have hlength : t.text.length + x.length = (c :: u).length := by
            rw [← hx, List.length_append]
          obtain ⟨onLine, hcut⟩ := ih x.length (by omega) (fun l hl ho => by
            have := h l (List.mem_cons_of_mem _ hl) (by omega)
            rwa [← hlength, ← Nat.add_assoc] at this) rfl
          have halone := hfirst offset [] [] List.nil_prefix ends_nil
          rw [List.append_nil, List.append_nil, List.append_nil] at halone
          refine ⟨onLine, fun q r hq hr => ?_⟩
          rw [hfirst offset q r hq hr, halone, hcut q r hq hr, ← hlength, Nat.add_assoc, List.cons_append]

/-! ### The lexemes of a whole text -/

section

variable {l : Lexeme} {ls ms : List Lexeme}

theorem scan_place (h : l ∈ scan text) :
    ∃ before rest, text = before ++ (l.token.text ++ rest) ∧ before.length = l.offset ∧
      l.token.text ≠ [] := by
  obtain ⟨us, ms, hs⟩ := List.append_of_mem h
  obtain ⟨before, c, cs, rest, onLine, rfl, ho, -, hscan, -⟩ := scanFrom_split ⟨us, hs.symm⟩
  have htext := text_scan onLine c cs
  have hne := text_ne_nil onLine c cs
  rw [hscan] at htext hne
  exact ⟨before, rest, by rw [htext], by omega, hne⟩

theorem offset_lt_length (h : l ∈ scan text) : l.offset + l.token.text.length ≤ text.length ∧
    l.offset < text.length := by
  obtain ⟨before, rest, htext, ho, hne⟩ := scan_place h
  have hpos := List.length_pos_iff.2 hne
  rw [htext, List.length_append, List.length_append]
  omega

/-- The lexemes before another one end at its offset or earlier, and those after it start there or
later. -/
theorem offset_order (h : scan text = ls ++ l :: ms) :
    (∀ m ∈ ls, m.offset < l.offset ∧ m.offset + m.token.text.length ≤ l.offset) ∧
      ∀ m ∈ ms, l.offset ≤ m.offset := by
  constructor
  · intro m hm
    obtain ⟨us, vs, rfl⟩ := List.append_of_mem hm
    have hs : m :: (vs ++ l :: ms) <:+ scan text := ⟨us, by simp [h]⟩
    obtain ⟨-, -, -, -, hne⟩ := scan_place (hs.subset List.mem_cons_self)
    have hpos := List.length_pos_iff.2 hne
    obtain ⟨-, -, -, rest, -, -, -, -, -, hrest⟩ := scanFrom_split hs
    have hl : l ∈ vs ++ l :: ms := by simp
    rw [hrest] at hl
    have := le_offset hl
    omega
  · intro m hm
    obtain ⟨-, -, -, rest, -, -, -, -, -, hrest⟩ := scanFrom_split ⟨ls, h.symm⟩
    rw [hrest] at hm
    have := le_offset hm
    omega

def isBefore (offset : Nat) (l : Lexeme) : Bool := l.offset < offset

theorem filter_isBefore (h : scan text = ls ++ l :: ms) :
    (scan text).filter (isBefore l.offset) = ls := by
  obtain ⟨hbefore, hafter⟩ := offset_order h
  have hls : ∀ m ∈ ls, isBefore l.offset m := by
    intro m hm
    exact decide_eq_true (hbefore m hm).1
  have hms : ∀ m ∈ l :: ms, ¬ isBefore l.offset m := by
    refine List.forall_mem_cons.2 ⟨by simp [isBefore], ?_⟩
    intro m hm
    simpa [isBefore] using hafter m hm
  rw [h, List.filter_append, List.filter_eq_self.2 hls, List.filter_eq_nil_iff.2 hms, List.append_nil]

theorem filter_isBefore_append (u v : List Char) (onLine : Bool) :
    (scan u ++ scanFrom onLine u.length v).filter (isBefore u.length) = scan u := by
  have hu : ∀ m ∈ scan u, isBefore u.length m := by
    intro m hm
    exact decide_eq_true (offset_lt_length hm).2
  have hv : ∀ m ∈ scanFrom onLine u.length v, ¬ isBefore u.length m := by
    intro m hm
    simpa [isBefore] using le_offset hm
  rw [List.filter_append, List.filter_eq_self.2 hu, List.filter_eq_nil_iff.2 hv, List.append_nil]

/-- The lexemes of a text before a place that none of them reaches over, whatever follows there: a part of
what followed, and then nothing or a blank. -/
theorem scan_append_cut (h : ∀ l ∈ scan (u ++ v), l.offset < u.length →
      l.offset + l.token.text.length ≤ u.length ∧ ∀ x, l.token ≠ .stray x) :
    ∃ onLine, ∀ q r, q <+: v → Ends r →
      scan (u ++ (q ++ r)) = scan u ++ scanFrom onLine u.length (q ++ r) := by
  have hcut := @scanFrom_cut false 0 u v
  simp only [Nat.zero_add] at hcut
  exact hcut h

/-- A text that is cut before a lexeme has the lexemes before the cut. -/
theorem scan_cut (h : scan text = ls ++ l :: ms) (hs : ∀ m ∈ ls, ∀ x, m.token ≠ .stray x) :
    ∃ onLine, ∀ q r, q <+: text.drop l.offset → Ends r →
      scan (text.take l.offset ++ (q ++ r)) = ls ++ scanFrom onLine l.offset (q ++ r) := by
  obtain ⟨hbefore, hafter⟩ := offset_order h
  have hmem : l ∈ scan text := by simp [h]
  have hlength : (text.take l.offset).length = l.offset := by
    have := (offset_lt_length hmem).2
    rw [List.length_take]
    omega
  have hcross : ∀ m ∈ scan (text.take l.offset ++ text.drop l.offset),
      m.offset < (text.take l.offset).length →
      m.offset + m.token.text.length ≤ (text.take l.offset).length ∧ ∀ x, m.token ≠ .stray x := by
    rw [List.take_append_drop, hlength, h]
    intro m hm ho
    obtain hm | hm := List.mem_append.1 hm
    · exact ⟨(hbefore m hm).2, hs m hm⟩
    · obtain rfl | hm := List.mem_cons.1 hm
      · omega
      · have := hafter m hm
        omega
  obtain ⟨onLine, hcut⟩ := scan_append_cut hcross
  have hls : scan (text.take l.offset) = ls := by
    have hall := hcut (text.drop l.offset) [] List.prefix_rfl ends_nil
    rw [List.append_nil, List.take_append_drop] at hall
    have hbefore := filter_isBefore_append (text.take l.offset) (text.drop l.offset) onLine
    rw [← hall, hlength, filter_isBefore h] at hbefore
    exact hbefore.symm
  rw [hls, hlength] at hcut
  exact ⟨onLine, hcut⟩

end

end Lexeme
end AwaitScript
