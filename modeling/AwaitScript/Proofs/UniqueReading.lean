import AwaitScript.Proofs.CompiledSource

/-! The target text of a program can be read in one way only. Two texts that agree are compared from the
left: each expression is told from what may follow it, and both texts indent their lines alike. -/
namespace AwaitScript

def EndsWord (rest : List Char) : Prop := ∀ c ∈ rest.head?, ¬ Token.isWordPart c

/-- An expression in front of this text ends before it. -/
def EndsExpression (rest : List Char) : Prop :=
  ∀ c ∈ rest.head?, ¬ Token.isWordPart c ∧ c ≠ ' '

theorem EndsExpression.endsWord {rest : List Char} (h : EndsExpression rest) : EndsWord rest :=
  fun c hc => (h c hc).1

theorem endsWord_cons {c : Char} (h : ¬ Token.isWordPart c) (rest : List Char) :
    EndsWord (c :: rest) := by
  rintro d ⟨⟩
  exact h

theorem endsExpression_cons {c : Char} (h : ¬ Token.isWordPart c) (hc : c ≠ ' ')
    (rest : List Char) : EndsExpression (c :: rest) := by
  rintro d ⟨⟩
  exact ⟨h, hc⟩

/-- A text that says `a` and then ends there says `b` only if `b` is `a`. -/
def UniqueText {α : Type} (text : α → List Char) (a b : α) : Prop :=
  ∀ r s, EndsExpression r → EndsExpression s → text a ++ r = text b ++ s → a = b ∧ r = s

theorem UniqueText.prepend {α : Type} {text : α → List Char} {a b : α} (h : UniqueText text a b)
    (start : List Char) : UniqueText (fun x => start ++ text x) a b := by
  intro r s hr hs heq
  rw [List.append_assoc, List.append_assoc] at heq
  exact h r s hr hs (List.append_cancel_left heq)

/-! ### Words -/

theorem word_unique {w v r s : List Char} (hw : IsWordText w) (hv : IsWordText v) (hr : EndsWord r)
    (hs : EndsWord s) (h : w ++ r = v ++ s) : w = v ∧ r = s := by
  obtain ⟨hw₁, hw₂⟩ := Json.takeWhile_stop hw.2 hr
  obtain ⟨hv₁, hv₂⟩ := Json.takeWhile_stop hv.2 hs
  rw [h] at hw₁ hw₂
  exact ⟨hw₁.symm.trans hv₁, hw₂.symm.trans hv₂⟩

def wordNode (w : List Char) : Node :=
  if w.head?.any Char.isDigit then .integer (Nat.ofDigitChars 10 w 0)
  else if w = "true".toList then .boolean true
  else if w = "false".toList then .boolean false
  else .identifier (String.ofList w)

inductive Form where
  | word
  | assignment
  | call
  | function
deriving DecidableEq

namespace Node

def form : Node → Form
  | .assignment _ _ => .assignment
  | .invocation _ _ => .call
  | .function _ _ => .function
  | _ => .word

theorem eq_function_of_form {n : Node} (h : n.form = .function) :
    ∃ parameters body, n = .function parameters body := by
  cases n with
  | function parameters body => exact ⟨parameters, body, rfl⟩
  | _ => cases h

end Node

namespace Printer

variable {unit : String} {depth : Nat}

theorem wordNode_integer (value : Nat) : wordNode (Json.writeInt value) = .integer value := by
  have hd : (Nat.toDigits 10 value).head?.any Char.isDigit := by
    cases hv : Nat.toDigits 10 value with
    | nil => exact absurd hv Nat.toDigits_ne_nil
    | cons c cs => exact Nat.isDigit_of_mem_toDigits (by decide) (by decide) (hv ▸ List.mem_cons_self)
  rw [writeInt_natCast, wordNode, if_pos hd, Nat.ofDigitChars_toDigits (by decide) (by decide)]

theorem wordNode_boolean (value : Bool) :
    wordNode (if value then "true" else "false").toList = .boolean value := by
  cases value <;> rfl

theorem wordNode_identifier {name : String} (h : IsVariable name) :
    wordNode name.toList = .identifier name := by
  have hdigit : ¬ name.toList.head?.any Char.isDigit := by
    obtain ⟨⟨c, v, hw, hc, -⟩, -⟩ := h
    rw [hw]
    intro hd
    have hrange := Grammar.isWordStart_range hc
    have hdigit : 48 ≤ c.toNat ∧ c.toNat ≤ 57 := Char.isDigit_iff_toNat.1 hd
    omega
  have htrue : name.toList ≠ "true".toList := fun ht => h.2 true (String.toList_inj.1 ht)
  have hfalse : name.toList ≠ "false".toList := fun hf => h.2 false (String.toList_inj.1 hf)
  rw [wordNode, if_neg hdigit, if_neg htrue, if_neg hfalse, String.ofList_toList]

theorem wordNode_node {n : Node} (h : n.IsLowerable) (hf : n.form = .word) :
    IsWordText (node unit depth n).toList ∧ wordNode (node unit depth n).toList = n := by
  cases h with
  | integer hk value =>
    rw [node, String.toList_ofList]
    exact ⟨isWordText_integer value, wordNode_integer value⟩
  | boolean hk value =>
    rw [node]
    exact ⟨isWordText_boolean value, wordNode_boolean value⟩
  | identifier hk hn =>
    rw [node]
    exact ⟨hn.1.isWordText, wordNode_identifier hn⟩
  | assignment | invocation | function => cases hf
  | float hk | string hk | destructuredAssignment hk | object hk | array hk => cases hk

def startForm (text : List Char) : Form :=
  let word := text.takeWhile Token.isWordPart
  if word = [] then .call
  else if (text.dropWhile Token.isWordPart).head? = some ' ' then
    if word = "const".toList then .assignment else .function
  else .word

theorem startForm_append {w r : List Char} (hw : ∀ c ∈ w, Token.isWordPart c) (hr : EndsWord r) :
    startForm (w ++ r) = if w = [] then .call else if r.head? = some ' ' then
      if w = "const".toList then .assignment else .function else .word := by
  obtain ⟨ht, hd⟩ := Json.takeWhile_stop hw hr
  rw [startForm, ht, hd]

theorem startForm_node {n : Node} (h : n.IsLowerable) {r : List Char} (hr : EndsExpression r) :
    startForm ((node unit depth n).toList ++ r) = n.form := by
  have hword (hf : n.form = .word) : startForm ((node unit depth n).toList ++ r) = n.form := by
    obtain ⟨hw, -⟩ := @wordNode_node unit depth n h hf
    have hblank : r.head? ≠ some ' ' := fun hc => (hr ' ' hc).2 rfl
    rw [startForm_append hw.2 hr.endsWord, if_neg hw.1, if_neg hblank, hf]
  cases h with
  | integer | boolean | identifier => exact hword rfl
  | assignment =>
    rw [toList_assignment]
    exact startForm_append (w := "const".toList) (r := ' ' :: _) (by simp; decide)
      (endsWord_cons (by decide) _)
  | invocation =>
    rw [toList_invocation]
    exact startForm_append (w := []) (r := '(' :: _) nofun (endsWord_cons (by decide) _)
  | function =>
    rw [toList_function]
    exact startForm_append (w := "async".toList) (r := ' ' :: _) (by simp; decide)
      (endsWord_cons (by decide) _)
  | float hk | string hk | destructuredAssignment hk | object hk | array hk => cases hk

/-! ### Lists -/

section

variable {α : Type} {text : α → List Char}

theorem endsExpression_flatMap {close : List Char} (hclose : ∀ r, EndsExpression (close ++ r))
    (htext : ∀ x r, EndsExpression (text x ++ r)) (xs : List α) (r : List Char) :
    EndsExpression (xs.flatMap text ++ (close ++ r)) := by
  cases xs with
  | nil => exact hclose r
  | cons x xs =>
    rw [List.flatMap_cons, List.append_assoc]
    exact htext x _

theorem flatMap_unique {close : List Char} (hclose : ∀ r, EndsExpression (close ++ r))
    (htext : ∀ x r, EndsExpression (text x ++ r)) {xs ys : List α}
    (hx : ∀ x ∈ xs, ∀ r s, text x ++ r ≠ close ++ s) (hy : ∀ y ∈ ys, ∀ r s, text y ++ r ≠ close ++ s)
    (hu : ∀ x ∈ xs, ∀ y ∈ ys, UniqueText text x y) {r s : List Char}
    (h : xs.flatMap text ++ (close ++ r) = ys.flatMap text ++ (close ++ s)) : xs = ys ∧ r = s := by
  induction xs generalizing ys with
  | nil =>
    cases ys with
    | nil => exact ⟨rfl, List.append_cancel_left h⟩
    | cons y ys =>
      rw [List.flatMap_cons, List.append_assoc] at h
      exact absurd h.symm (hy y List.mem_cons_self _ _)
  | cons x xs ih =>
    rw [List.flatMap_cons, List.append_assoc] at h
    rw [List.forall_mem_cons] at hx
    cases ys with
    | nil => exact absurd h (hx.1 _ _)
    | cons y ys =>
      rw [List.flatMap_cons, List.append_assoc] at h
      rw [List.forall_mem_cons] at hy
      obtain ⟨rfl, htail⟩ := hu x List.mem_cons_self y List.mem_cons_self _ _
        (endsExpression_flatMap hclose htext xs r) (endsExpression_flatMap hclose htext ys s) h
      obtain ⟨rfl, hrest⟩ := ih hx.2 hy.2
        (fun x hx y hy => hu x (List.mem_cons_of_mem _ hx) y (List.mem_cons_of_mem _ hy)) htail
      exact ⟨rfl, hrest⟩

theorem intercalate_comma (x : List Char) (xs : List (List Char)) :
    ", ".toList.intercalate (x :: xs) = x ++ xs.flatMap (", ".toList ++ ·) := by
  induction xs generalizing x with
  | nil => simp
  | cons y ys ih =>
    rw [List.intercalate_cons_cons, ih, List.flatMap_cons]
    simp only [List.append_assoc]

theorem intercalate_unique {xs ys : List α}
    (hx : ∀ x ∈ xs, ∀ r s, text x ++ r ≠ ')' :: s) (hy : ∀ y ∈ ys, ∀ r s, text y ++ r ≠ ')' :: s)
    (hu : ∀ x ∈ xs, ∀ y ∈ ys, UniqueText text x y) {r s : List Char}
    (h : ", ".toList.intercalate (xs.map text) ++ ([')'] ++ r) =
      ", ".toList.intercalate (ys.map text) ++ ([')'] ++ s)) : xs = ys ∧ r = s := by
  have hclose (r : List Char) : EndsExpression ([')'] ++ r) :=
    endsExpression_cons (by decide) (by decide) r
  have hcomma (x : α) (r : List Char) : EndsExpression (", ".toList ++ text x ++ r) :=
    endsExpression_cons (by decide) (by decide) _
  have hne (x : α) (r s : List Char) : ", ".toList ++ text x ++ r ≠ [')'] ++ s := by simp
  cases xs with
  | nil =>
    cases ys with
    | nil => simpa using h
    | cons y ys =>
      rw [List.map_cons, intercalate_comma, List.append_assoc] at h
      exact absurd h.symm (hy y List.mem_cons_self _ _)
  | cons x xs =>
    rw [List.map_cons, intercalate_comma, List.append_assoc] at h
    cases ys with
    | nil => exact absurd h (hx x List.mem_cons_self _ _)
    | cons y ys =>
      rw [List.map_cons, intercalate_comma, List.append_assoc, List.flatMap_map, List.flatMap_map] at h
      obtain ⟨rfl, htail⟩ := hu x List.mem_cons_self y List.mem_cons_self _ _
        (endsExpression_flatMap hclose hcomma xs r) (endsExpression_flatMap hclose hcomma ys s) h
      obtain ⟨rfl, hrest⟩ := flatMap_unique hclose hcomma (fun x _ => hne x) (fun y _ => hne y)
        (fun x hx y hy => (hu x (List.mem_cons_of_mem _ hx) y (List.mem_cons_of_mem _ hy)).prepend _) htail
      exact ⟨rfl, hrest⟩

end

/-! ### Statements, parameters and callees -/

abbrev nodeText (unit : String) (depth : Nat) (n : Node) : List Char := (node unit depth n).toList

theorem form_unique {a b : Node} (ha : a.IsLowerable) (hb : b.IsLowerable) {r s : List Char}
    (hr : EndsExpression r) (hs : EndsExpression s)
    (h : nodeText unit depth a ++ r = nodeText unit depth b ++ s) : a.form = b.form := by
  rw [← startForm_node ha hr, ← startForm_node hb hs, h]

theorem node_ne_cons {n : Node} (hn : n.IsLowerable) {c : Char} (hc : Token.isWordPart c = false)
    (hp : c ≠ '(') (r s : List Char) : nodeText unit depth n ++ r ≠ c :: s := by
  obtain ⟨d, cs, hd, hstart⟩ := node_head unit depth hn
  rw [nodeText, hd]
  intro h
  obtain ⟨rfl, -⟩ := List.cons.inj h
  rw [hc] at hstart
  simp [hp] at hstart

theorem statements_toList (unit : String) (depth : Nat) (ns : List Node) :
    (statements unit depth ns).toList =
      ns.flatMap fun n => (newline unit depth).toList ++ nodeText unit depth n := by
  induction ns with
  | nil => simp [statements]
  | cons n ns ih => rw [statements, String.toList_append, String.toList_append, ih, List.flatMap_cons]

/-- The statements of a block, up to the brace that closes it on a line one level out. -/
theorem statements_unique (hunit : unit.toList.head? ≠ some '\x7d') {ns ms : List Node}
    (hns : ∀ n ∈ ns, n.IsLowerable) (hms : ∀ m ∈ ms, m.IsLowerable)
    (hu : ∀ n ∈ ns, ∀ m ∈ ms, UniqueText (nodeText unit (depth + 1)) n m) {r s : List Char}
    (h : (statements unit (depth + 1) ns).toList ++ ((newline unit depth).toList ++ '\x7d' :: r) =
      (statements unit (depth + 1) ms).toList ++ ((newline unit depth).toList ++ '\x7d' :: s)) :
    ns = ms ∧ r = s := by
  have hnewline (depth : Nat) (u v : List Char) :
      EndsExpression ((newline unit depth).toList ++ u ++ v) := by
    rw [newline, String.toList_append]
    exact endsExpression_cons (by decide) (by decide) _
  have hne {n : Node} (hn : n.IsLowerable) (r s : List Char) :
      (newline unit (depth + 1)).toList ++ nodeText unit (depth + 1) n ++ r ≠
        (newline unit depth).toList ++ ['\x7d'] ++ s := by
    intro h
    -- the lines agree up to the depth of the brace, where the statement has one more unit
    simp only [newline, indent_succ, String.toList_append, List.append_assoc,
      List.append_cancel_left_eq] at h
    cases hunits : unit.toList with
    | nil =>
      rw [hunits] at h
      exact node_ne_cons hn rfl (by decide) r s h
    | cons c cs =>
      rw [hunits] at h hunit
      exact hunit (congrArg some (List.cons.inj h).1)
  rw [statements_toList, statements_toList, List.append_cons, List.append_cons _ _ s] at h
  exact flatMap_unique (hnewline depth _) (fun _ => hnewline (depth + 1) _) (fun n hn => hne (hns n hn))
    (fun m hm => hne (hms m hm)) (fun n hn m hm => (hu n hn m hm).prepend _) h

theorem endsWord_equals (u : List Char) : EndsWord (" = ".toList ++ u) := endsWord_cons (by decide) _

theorem binding_unique {m n : String} (hm : IsName m) (hn : IsName n) {v w : Node}
    (hu : UniqueText (nodeText unit depth) v w) {r s : List Char} (hr : EndsExpression r)
    (hs : EndsExpression s) (h : m.toList ++ (" = ".toList ++ (nodeText unit depth v ++ r)) =
      n.toList ++ (" = ".toList ++ (nodeText unit depth w ++ s))) : m = n ∧ v = w ∧ r = s := by
  obtain ⟨hname, hvalue⟩ := word_unique hm.isWordText hn.isWordText (endsWord_equals _) (endsWord_equals _) h
  exact ⟨String.toList_inj.1 hname, hu r s hr hs (List.append_cancel_left hvalue)⟩

def Declares (es : List Node) (name : String) : Prop :=
  IsName name ∧ (es = [.identifier name] ∨ ∃ value, es = [.assignment (.identifier name) value])

theorem Declares.ne_cons {es : List Node} {name : String} (h : Declares es name) {c : Char}
    (hc : Token.isWordPart c = false) (r s : List Char) :
    (expressions unit depth es).toList ++ r ≠ c :: s := by
  obtain ⟨hname, hes⟩ := h
  have hword (t : List Char) : name.toList ++ t ≠ c :: s := by
    obtain ⟨d, cs, hd⟩ := List.exists_cons_of_ne_nil hname.isWordText.1
    have hpart := hname.isWordText.2 d (by simp [hd])
    rw [hd]
    intro h
    rw [(List.cons.inj h).1, hc] at hpart
    cases hpart
  obtain rfl | ⟨value, rfl⟩ := hes
  · rw [toList_parameter]
    exact hword r
  · rw [toList_default, List.append_assoc, List.append_assoc]
    exact hword _

theorem parameter_unique {es fs : List Node} {m n : String} (hes : Declares es m) (hfs : Declares fs n)
    (hu : ∀ v w, es = [.assignment (.identifier m) v] → fs = [.assignment (.identifier n) w] →
      UniqueText (nodeText unit depth) v w) :
    UniqueText (fun es => (expressions unit depth es).toList) es fs := by
  intro r s hr hs h
  obtain ⟨hm, hes⟩ := hes
  obtain ⟨hn, hfs⟩ := hfs
  have hclash {t u : List Char} (ht : EndsExpression t) : t ≠ " = ".toList ++ u := by
    rintro rfl
    exact (ht ' ' rfl).2 rfl
  obtain rfl | ⟨v, rfl⟩ := hes
  · obtain rfl | ⟨w, rfl⟩ := hfs
    · simp only [toList_parameter] at h
      obtain ⟨hname, hrest⟩ := word_unique hm.isWordText hn.isWordText hr.endsWord hs.endsWord h
      exact ⟨by rw [String.toList_inj.1 hname], hrest⟩
    · simp only [toList_parameter, toList_default, List.append_assoc] at h
      obtain ⟨-, hrest⟩ := word_unique hm.isWordText hn.isWordText hr.endsWord (endsWord_equals _) h
      exact absurd hrest (hclash hr)
  · obtain rfl | ⟨w, rfl⟩ := hfs
    · simp only [toList_parameter, toList_default, List.append_assoc] at h
      obtain ⟨-, hrest⟩ := word_unique hm.isWordText hn.isWordText (endsWord_equals _) hs.endsWord h
      exact absurd hrest.symm (hclash hs)
    · simp only [toList_default, List.append_assoc] at h
      obtain ⟨rfl, rfl, hrest⟩ := binding_unique hm hn (hu v w rfl rfl) hr hs h
      exact ⟨rfl, hrest⟩

theorem callee_eq (f : Node) (text : String) :
    callee f text = if f.form = .function then "(" ++ text ++ ")" else text := by
  cases f <;> rfl

theorem function_ne_callee {f g : Node} (hf : f.form = .function) (hg : g.IsLowerable) {s : List Char}
    (hs : EndsExpression s) (r : List Char) :
    '(' :: (nodeText unit depth f ++ r) ≠ nodeText unit depth g ++ s := by
  obtain ⟨parameters, body, rfl⟩ := Node.eq_function_of_form hf
  intro h
  have hcall : g.form = .call := by
    rw [← startForm_node hg hs, ← h]
    exact startForm_append (w := []) nofun (endsWord_cons (by decide) _)
  cases hg with
  | invocation =>
    rw [nodeText, nodeText, toList_function, toList_invocation] at h
    simp at h
  | _ => cases hcall

theorem callee_unique {f g : Node} (hf : f.IsLowerable) (hg : g.IsLowerable)
    (hu : UniqueText (nodeText unit depth) f g) {r s : List Char}
    (h : (callee f (node unit depth f)).toList ++ '(' :: r =
      (callee g (node unit depth g)).toList ++ '(' :: s) : f = g ∧ r = s := by
  have hparen (t : List Char) : EndsExpression ('(' :: t) := endsExpression_cons (by decide) (by decide) t
  have htext (n : Node) (t : List Char) : ("(" ++ node unit depth n ++ ")").toList ++ t =
      '(' :: (nodeText unit depth n ++ ')' :: t) := by simp
  rw [callee_eq, callee_eq] at h
  by_cases hff : f.form = .function <;> by_cases hgf : g.form = .function
  · rw [if_pos hff, if_pos hgf, htext, htext] at h
    obtain ⟨rfl, hrest⟩ := hu _ _ (endsExpression_cons (by decide) (by decide) _)
      (endsExpression_cons (by decide) (by decide) _) (List.cons.inj h).2
    simpa using hrest
  · rw [if_pos hff, if_neg hgf, htext] at h
    exact absurd h (function_ne_callee hff hg (hparen s) _)
  · rw [if_neg hff, if_pos hgf, htext] at h
    exact absurd h.symm (function_ne_callee hgf hf (hparen r) _)
  · rw [if_neg hff, if_neg hgf] at h
    obtain ⟨rfl, hrest⟩ := hu _ _ (hparen r) (hparen s) h
    simpa using hrest

/-! ### Whole texts -/

theorem word_node_unique {a b : Node} (ha : a.IsLowerable) (hb : b.IsLowerable) (hf : a.form = .word) :
    UniqueText (nodeText unit depth) a b := by
  intro r s hr hs h
  have hbf : b.form = .word := (form_unique ha hb hr hs h).symm.trans hf
  obtain ⟨haw, hread⟩ := @wordNode_node unit depth a ha hf
  obtain ⟨hbw, hread'⟩ := @wordNode_node unit depth b hb hbf
  obtain ⟨htext, hrest⟩ := word_unique haw hbw hr.endsWord hs.endsWord h
  exact ⟨hread.symm.trans ((congrArg wordNode htext).trans hread'), hrest⟩

theorem assignment_unique {m n : String} (hm : IsName m) (hn : IsName n) {v w : Node}
    (hu : UniqueText (nodeText unit depth) v w) :
    UniqueText (nodeText unit depth) (.assignment (.identifier m) v) (.assignment (.identifier n) w) := by
  intro r s hr hs h
  have hname (name : String) : (node unit depth (.identifier name)).toList = name.toList := by rw [node]
  simp only [nodeText, toList_assignment, hname, List.append_assoc, List.append_cancel_left_eq] at h
  obtain ⟨rfl, rfl, hrest⟩ := binding_unique hm hn hu hr hs h
  exact ⟨rfl, hrest⟩

theorem invocation_unique {f g : Node} {as bs : List Node} (hf : f.IsLowerable) (hg : g.IsLowerable)
    (hu : UniqueText (nodeText unit depth) f g) (has : ∀ a ∈ as, a.IsLowerable)
    (hbs : ∀ b ∈ bs, b.IsLowerable)
    (hus : ∀ a ∈ as, ∀ b ∈ bs, UniqueText (nodeText unit depth) a b) :
    UniqueText (nodeText unit depth) (.invocation f as) (.invocation g bs) := by
  intro r s hr hs h
  have htexts (ns : List Node) : (", ".intercalate (nodes unit depth ns)).toList =
      ", ".toList.intercalate (ns.map (nodeText unit depth)) := by
    rw [String.toList_intercalate, nodes_eq, List.map_map]
    rfl
  have hclose : "))".toList = [')'] ++ [')'] := rfl
  simp only [nodeText, toList_invocation, htexts, hclose, List.append_assoc,
    List.append_cancel_left_eq] at h
  obtain ⟨rfl, hlist⟩ := callee_unique hf hg hu h
  obtain ⟨rfl, hrest⟩ := intercalate_unique (fun a ha => node_ne_cons (has a ha) rfl (by decide))
    (fun b hb => node_ne_cons (hbs b hb) rfl (by decide)) hus hlist
  exact ⟨rfl, (List.cons.inj hrest).2⟩

theorem block_unique (hunit : unit.toList.head? ≠ some '\x7d') {ns ms : List Node}
    (hns : ∀ n ∈ ns, n.IsLowerable) (hms : ∀ m ∈ ms, m.IsLowerable)
    (hu : ∀ n ∈ ns, ∀ m ∈ ms, UniqueText (nodeText unit (depth + 1)) n m) {r s : List Char}
    (h : (if ns.isEmpty then "" else statements unit (depth + 1) ns ++ newline unit depth).toList ++
        '\x7d' :: r =
      (if ms.isEmpty then "" else statements unit (depth + 1) ms ++ newline unit depth).toList ++
        '\x7d' :: s) : ns = ms ∧ r = s := by
  have hne {ks : List Node} (hk : ¬ ks.isEmpty) (t u : List Char) :
      (statements unit (depth + 1) ks ++ newline unit depth).toList ++ t ≠ '\x7d' :: u := by
    cases ks with
    | nil => exact absurd rfl hk
    | cons k ks => simp [statements, newline]
  by_cases hn : ns.isEmpty <;> by_cases hm : ms.isEmpty
  · rw [if_pos hn, if_pos hm] at h
    rw [List.isEmpty_iff.1 hn, List.isEmpty_iff.1 hm]
    simpa using h
  · rw [if_pos hn, if_neg hm] at h
    exact absurd h.symm (hne hm _ _)
  · rw [if_neg hn, if_pos hm] at h
    exact absurd h (hne hn _ _)
  · rw [if_neg hn, if_neg hm] at h
    apply statements_unique hunit hns hms hu
    simpa using h

theorem function_unique (hunit : unit.toList.head? ≠ some '\x7d') {ps qs : List (List Node)}
    {ns ms : List Node} (hps : ∀ es ∈ ps, ∃ name, Declares es name)
    (hqs : ∀ es ∈ qs, ∃ name, Declares es name)
    (hup : ∀ m v n w, [.assignment (.identifier m) v] ∈ ps → [.assignment (.identifier n) w] ∈ qs →
      UniqueText (nodeText unit depth) v w)
    (hns : ∀ n ∈ ns, n.IsLowerable) (hms : ∀ m ∈ ms, m.IsLowerable)
    (hub : ∀ n ∈ ns, ∀ m ∈ ms, UniqueText (nodeText unit (depth + 1)) n m) :
    UniqueText (nodeText unit depth) (.function ps ns) (.function qs ms) := by
  intro r s hr hs h
  have htexts (ps : List (List Node)) : (", ".intercalate (parameterList unit depth ps)).toList =
      ", ".toList.intercalate (ps.map fun es => (expressions unit depth es).toList) := by
    rw [String.toList_intercalate, parameterList_eq, List.map_map]
    rfl
  have hne {es : List Node} (hes : ∃ name, Declares es name) (r s : List Char) :
      (expressions unit depth es).toList ++ r ≠ ')' :: s := by
    obtain ⟨name, hes⟩ := hes
    exact hes.ne_cons rfl r s
  have hparameters : ∀ es ∈ ps, ∀ fs ∈ qs,
      UniqueText (fun es => (expressions unit depth es).toList) es fs := by
    intro es hes fs hfs
    obtain ⟨m, hm⟩ := hps es hes
    obtain ⟨n, hn⟩ := hqs fs hfs
    refine parameter_unique hm hn ?_
    rintro v w rfl rfl
    exact hup m v n w hes hfs
  have harrow : ") => \x7b".toList = [')'] ++ " => \x7b".toList := rfl
  have hbrace : "\x7d".toList = ['\x7d'] := rfl
  simp only [nodeText, toList_function, htexts, harrow, hbrace, List.append_assoc,
    List.append_cancel_left_eq] at h
  obtain ⟨rfl, hbody⟩ := intercalate_unique (fun es hes => hne (hps es hes))
    (fun es hes => hne (hqs es hes)) hparameters h
  obtain ⟨rfl, hrest⟩ := block_unique hunit hns hms hub (List.append_cancel_left hbody)
  exact ⟨rfl, hrest⟩

/-- The text of an expression says where it ends and which expression it is. -/
theorem node_unique (hunit : unit.toList.head? ≠ some '\x7d') {a b : Node} (ha : a.IsLowerable)
    (hb : b.IsLowerable) : UniqueText (nodeText unit depth) a b := by
  -- both texts start alike, so both expressions have one form and their parts are compared in order
  induction ha generalizing b depth with
  | integer hk value => exact word_node_unique (.integer hk value) hb rfl
  | boolean hk value => exact word_node_unique (.boolean hk value) hb rfl
  | identifier hk hn => exact word_node_unique (.identifier hk hn) hb rfl
  | assignment hk hn hv ih =>
    intro r s hr hs h
    have hform := form_unique (.assignment hk hn hv) hb hr hs h
    cases hb with
    | assignment hk' hn' hv' => exact assignment_unique hn.1 hn'.1 (ih hv') r s hr hs h
    | _ => cases hform
  | invocation hk hc hbind hargs ihc iha =>
    intro r s hr hs h
    have hform := form_unique (.invocation hk hc hbind hargs) hb hr hs h
    cases hb with
    | invocation hk' hc' hbind' hargs' =>
      exact invocation_unique hc hc' (ihc hc') hargs hargs'
        (fun a ha b hb => iha a ha (hargs' b hb)) r s hr hs h
    | _ => cases hform
  | function hk hp hv hi hl hbody ihv ihb =>
    intro r s hr hs h
    have hform := form_unique (.function hk hp hv hi hl hbody) hb hr hs h
    cases hb with
    | function hk' hp' hv' hi' hl' hbody' =>
      exact function_unique hunit hp hp' (fun m v n w hv hw => ihv m v hv (hv' n w hw))
        (fun n hn => hbody n hn (Node.isLowerable_body hi hn))
        (fun m hm => hbody' m hm (Node.isLowerable_body hi' hm))
        (fun n hn m hm => ihb n hn (Node.isLowerable_body hi hn)
          (hbody' m hm (Node.isLowerable_body hi' hm))) r s hr hs h
    | _ => cases hform
  | float hk | string hk | destructuredAssignment hk | object hk | array hk => cases hk

theorem program_unique {config : Config} (hunit : config.indentUnit.toList.head? ≠ some '\x7d')
    {p q : Program} (hp : ∀ n ∈ p, n.IsLowerable) (hq : ∀ n ∈ q, n.IsLowerable)
    (h : Printer.program config p = Printer.program config q) : p = q := by
  have hclosing : Config.closing.toList = '\x7d' :: "())".toList := rfl
  have htexts := congrArg String.toList h
  simp only [Printer.program, String.toList_append, hclosing, List.append_assoc,
    List.append_cancel_left_eq] at htexts
  exact (statements_unique hunit hp hq
    (fun n hn m hm => node_unique hunit (hp n hn) (hq m hm)) htexts).1

end Printer

namespace Source

/-- Texts that compile to the same text say the same program, if the indentation cannot be mistaken for
the end of a block. -/
theorem parse_eq_of_compile_eq {config : Config}
    (hunit : config.indentUnit.toList.head? ≠ some '\x7d') {a b output : String}
    (ha : compile config a = .ok output) (hb : compile config b = .ok output) :
    ∃ program, parse a = .ok program ∧ parse b = .ok program := by
  obtain ⟨p, hp, hps, hap⟩ := compile_eq_ok_iff.1 ha
  obtain ⟨q, hq, hqs, hbq⟩ := compile_eq_ok_iff.1 hb
  have hpq : p = q := Printer.program_unique hunit (isLowerable_of_parse hp hps)
    (isLowerable_of_parse hq hqs) (hap.trans hbq.symm)
  exact ⟨p, hp, hpq ▸ hq⟩

theorem parse_eq_without_indentation :
    "".toList.head? ≠ some '\x7d' ∧
      compile ⟨"run", ""⟩ "const = async(await, () => \x7b x \x7d)" = .ok ("\n".intercalate
        ["(async function run () \x7b", "const const = (await async(await, async () => \x7b", "x", "\x7d))",
          "\x7d())"]) ∧
      compile ⟨"run", ""⟩ "const=async(await,\n\t() => \x7bx\x7d,)" = .ok ("\n".intercalate
        ["(async function run () \x7b", "const const = (await async(await, async () => \x7b", "x", "\x7d))",
          "\x7d())"]) ∧
      ∃ program, parse "const = async(await, () => \x7b x \x7d)" = .ok program ∧
        parse "const=async(await,\n\t() => \x7bx\x7d,)" = .ok program := by
  have hunit : "".toList.head? ≠ some '\x7d' := by decide
  have ha : compile ⟨"run", ""⟩ "const = async(await, () => \x7b x \x7d)" = .ok ("\n".intercalate
      ["(async function run () \x7b", "const const = (await async(await, async () => \x7b", "x", "\x7d))",
        "\x7d())"]) := by cbv
  have hb : compile ⟨"run", ""⟩ "const=async(await,\n\t() => \x7bx\x7d,)" = .ok ("\n".intercalate
      ["(async function run () \x7b", "const const = (await async(await, async () => \x7b", "x", "\x7d))",
        "\x7d())"]) := by cbv
  exact ⟨hunit, ha, hb, parse_eq_of_compile_eq hunit ha hb⟩

end Source
end AwaitScript
