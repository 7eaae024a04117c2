import AwaitScript.Proofs.LoweringOutcome
import AwaitScript.Proofs.Traversal

/-! A printer that writes the target text directly and carries the depth of its lines along. Compiling
gives the text that it prints. -/
namespace AwaitScript

namespace Printer

def indent (unit : String) (depth : Nat) : String := String.join (List.replicate depth unit)

def newline (unit : String) (depth : Nat) : String := "\n" ++ indent unit depth

/-- A function literal that is called at once stands in parentheses. -/
def callee (function : Node) (text : String) : String :=
  match function with
  | .function _ _ => "(" ++ text ++ ")"
  | _ => text

mutual

def node (unit : String) (depth : Nat) : Node → String
  | .integer value => String.ofList (Json.writeInt value)
  | .boolean value => if value then "true" else "false"
  | .identifier name => name
  | .assignment target value => "const " ++ node unit depth target ++ " = " ++ node unit depth value
  | .invocation function arguments =>
    "(await " ++ callee function (node unit depth function) ++ "(" ++
      ", ".intercalate (nodes unit depth arguments) ++ "))"
  | .function parameters body =>
    "async (" ++ ", ".intercalate (parameterList unit depth parameters) ++ ") => \x7b" ++
      (if body.isEmpty then "" else statements unit (depth + 1) body ++ newline unit depth) ++ "\x7d"
  | _ => ""

def nodes (unit : String) (depth : Nat) : List Node → List String
  | [] => []
  | n :: ns => node unit depth n :: nodes unit depth ns

/-- The expressions of one parameter; a default is given without declaring a name. -/
def expressions (unit : String) (depth : Nat) : List Node → String
  | [] => ""
  | .assignment target value :: ns =>
    node unit depth target ++ " = " ++ node unit depth value ++ expressions unit depth ns
  | n :: ns => node unit depth n ++ expressions unit depth ns

def parameterList (unit : String) (depth : Nat) : List (List Node) → List String
  | [] => []
  | ns :: parameters => expressions unit depth ns :: parameterList unit depth parameters

def statements (unit : String) (depth : Nat) : List Node → String
  | [] => ""
  | n :: ns => newline unit depth ++ node unit depth n ++ statements unit depth ns

end

/-- A program in its entry point: statements are at depth one, the first line and the last one at zero. -/
def program (config : Config) (program : Program) : String :=
  config.opening ++ statements config.indentUnit 1 program ++ newline config.indentUnit 0 ++ Config.closing

end Printer

namespace Emission

/-! ### Text that goes on -/

/-- The text of some pieces when the first of them continues a line, and all lines after a group are
indented. -/
def running (unit indentation : String) : List Emission → String
  | [] => ""
  | line t :: ps => t ++ running unit indentation ps
  | group s :: ps =>
    "\n" ++ flatten unit (nested unit indentation s) s ++ "\n" ++ indentation ++ running unit indentation ps

theorem running_append (unit indentation : String) (ps qs : List Emission) :
    running unit indentation (ps ++ qs) = running unit indentation ps ++ running unit indentation qs := by
  induction ps with
  | nil => simp [running]
  | cons p ps ih => cases p <;> simp [running, ih, String.append_assoc]

theorem running_flatMap (unit indentation : String) (fragments : List Emission) :
    running unit indentation (fragments.flatMap parts) =
      String.join (fragments.map fun e => running unit indentation e.parts) := by
  induction fragments with
  | nil => rfl
  | cons e fragments ih => rw [List.flatMap_cons, running_append, ih, List.map_cons, String.join_cons]

theorem seamless_running (unit indentation : String) : Seamless (running unit indentation) where
  empty ps := by rw [running, String.empty_append]
  joined a b ps := by rw [running, running, running, String.append_assoc]
  front p ps qs h := by cases p <;> rw [running, running, h]

/-- Splicing continues the text. -/
theorem running_concat (unit indentation : String) {fragments : List Emission} {e : Emission}
    (h : concat fragments = .ok e) : running unit indentation e.parts =
      String.join (fragments.map fun e => running unit indentation e.parts) := by
  rw [(seamless_running unit indentation).concat h, running_flatMap]

theorem running_join (unit indentation separator : String) {fragments : List Emission} {e : Emission}
    (h : join separator fragments = .ok e) : running unit indentation e.parts =
      separator.intercalate (fragments.map fun e => running unit indentation e.parts) := by
  rw [running_concat unit indentation h]
  clear h
  induction fragments with
  | nil => rfl
  | cons e fragments ih =>
    cases fragments with
    | nil => simp
    | cons e' fragments =>
      rw [List.intersperse_cons_cons, List.map_cons, List.map_cons, String.join_cons, String.join_cons, ih]
      simp [parts, running, String.append_assoc]

/-! ### Text of whole statements -/

section

variable {unit indentation : String}

theorem pieces_line {t : String} (ht : t ≠ "") (ps : List Emission) :
    pieces unit indentation (line t :: ps) = (indentation ++ t) :: pieces unit indentation ps := by
  simp [pieces, piece?, ht]

theorem pieces_group {s : List Emission} (hs : flatten unit (nested unit indentation s) s ≠ "")
    (ps : List Emission) : pieces unit indentation (group s :: ps) =
      flatten unit (nested unit indentation s) s :: pieces unit indentation ps := by
  unfold flatten at hs ⊢
  simp [pieces, piece?, hs]

theorem intercalate_ne_empty {x : String} (hx : x ≠ "") (separator : String) (xs : List String) :
    separator.intercalate (x :: xs) ≠ "" := by
  cases xs with
  | nil => simpa using hx
  | cons y ys =>
    rw [String.intercalate_cons_cons]
    simp [String.append_eq_empty_iff, hx]

theorem flatten_head_ne_empty (unit indentation : String) {ps : List Emission} (hp : headText ps ≠ "") :
    flatten unit indentation ps ≠ "" := by
  unfold flatten
  cases ps with
  | nil => exact absurd rfl hp
  | cons p ps =>
    cases p with
    | group s => exact absurd rfl hp
    | line t =>
      have ht : t ≠ "" := hp
      have hi : indentation ++ t ≠ "" := by simp [String.append_eq_empty_iff, ht]
      rw [pieces_line ht]
      exact intercalate_ne_empty hi _ _

theorem flatten_ne_empty {s : List Emission} (h : Sequence (· ≠ "") s) : flatten unit indentation s ≠ "" := by
  cases h with
  | @lines ts hne h =>
    obtain ⟨t, ts, rfl⟩ := List.exists_cons_of_ne_nil hne
    exact flatten_head_ne_empty unit indentation (h t (by simp))
  | @blocks bs hne h hh =>
    obtain ⟨b, bs, rfl⟩ := List.exists_cons_of_ne_nil hne
    have hb := flatten_head_ne_empty unit (nested unit indentation b) (hh b (by simp))
    rw [flatten, List.map_cons, pieces_group hb]
    exact intercalate_ne_empty hb _ _

theorem flatten_parts (unit indentation : String) {ps : List Emission}
    (h : Parts (Sequence (· ≠ "")) (· ≠ "") ps) (hh : headText ps ≠ "") :
    flatten unit indentation ps = indentation ++ running unit indentation ps := by
  unfold flatten
  induction h with
  | last t =>
    have ht : t ≠ "" := hh
    rw [pieces_line ht]
    simp [pieces, running]
  | @opens t s t' rest hs ht' h ih =>
    have ht : t ≠ "" := hh
    rw [pieces_line ht, pieces_group (flatten_ne_empty hs), String.intercalate_cons_cons,
      String.intercalate_cons_of_ne_nil, ih ht']
    · simp [running, String.append_assoc]
    · rw [pieces_line ht']
      simp

theorem nested_of_parts {S : List Emission → Prop} {P : String → Prop} {ps : List Emission}
    (h : Parts S P ps) : nested unit indentation ps = indentation ++ unit := by
  obtain ⟨t, rest, rfl⟩ := h.head
  rfl

theorem pieces_blocks {es : List Emission} (h : ∀ e ∈ es, Statement (· ≠ "") e) :
    pieces unit indentation ((es.map parts).map group) =
      es.map fun e => indentation ++ unit ++ running unit (indentation ++ unit) e.parts := by
  induction es with
  | nil => rfl
  | cons e es ih =>
    have he := h e (by simp)
    rw [List.map_cons, List.map_cons, List.map_cons, pieces_group (flatten_head_ne_empty _ _ he.head),
      ih fun e h' => h e (by simp [h']), nested_of_parts he.shape, flatten_parts _ _ he.shape he.head]

theorem pieces_lines {es : List Emission} (h : ∀ e ∈ es, Statement (· ≠ "") e)
    (hg : ¬ es.any isGroup) : pieces unit indentation ((es.map fun e => headText e.parts).map line) =
      es.map fun e => indentation ++ running unit indentation e.parts := by
  induction es with
  | nil => rfl
  | cons e es ih =>
    rw [List.any_cons, Bool.or_eq_true, not_or] at hg
    have he := (h e (by simp)).head
    rw [List.map_cons, List.map_cons, List.map_cons, pieces_line he,
      ih (fun e h' => h e (by simp [h'])) hg.2]
    cases e with
    | line t => simp [parts, headText, running]
    | group cs => exact absurd rfl hg.1

/-- The statements of a body stand below one another, one unit deeper, whether they are all lines or not. -/
theorem flatten_siblings {es : List Emission} (hne : es ≠ []) (h : ∀ e ∈ es, Statement (· ≠ "") e) :
    flatten unit (nested unit indentation (Lowering.siblings es)) (Lowering.siblings es) =
      "\n".intercalate (es.map fun e =>
        indentation ++ unit ++ running unit (indentation ++ unit) e.parts) := by
  have hcons : ∃ e rest, es = e :: rest := List.exists_cons_of_ne_nil hne
  unfold flatten
  by_cases hg : es.any isGroup
  · have hn : nested unit indentation ((es.map parts).map group) = indentation := by
      obtain ⟨e, rest, rfl⟩ := hcons
      rfl
    rw [siblings_blocks hg, hn, pieces_blocks h]
  · have hn : nested unit indentation ((es.map fun e => headText e.parts).map line) =
        indentation ++ unit := by
      obtain ⟨e, rest, rfl⟩ := hcons
      rfl
    rw [siblings_lines hg, hn, pieces_lines h hg]

end

end Emission

namespace Printer

theorem indent_succ (unit : String) (depth : Nat) :
    indent unit (depth + 1) = indent unit depth ++ unit := by
  rw [indent, List.replicate_succ', String.join_append, indent]
  simp

theorem mem_indent {unit : String} {depth : Nat} {c : Char} (h : c ∈ (indent unit depth).toList) :
    c ∈ unit.toList := by
  induction depth with
  | zero => simp [indent] at h
  | succ depth ih =>
    rw [indent_succ, String.toList_append, List.mem_append] at h
    exact h.elim ih id

theorem nodes_eq (unit : String) (depth : Nat) (ns : List Node) :
    nodes unit depth ns = ns.map (node unit depth) := by
  induction ns with
  | nil => rfl
  | cons n ns ih => rw [nodes, ih, List.map_cons]

def expression (unit : String) (depth : Nat) : Node → String
  | .assignment target value => node unit depth target ++ " = " ++ node unit depth value
  | n => node unit depth n

theorem expressions_eq (unit : String) (depth : Nat) (ns : List Node) :
    expressions unit depth ns = String.join (ns.map (expression unit depth)) := by
  induction ns with
  | nil => rfl
  | cons n ns ih =>
    rw [List.map_cons, String.join_cons, ← ih]
    cases n <;> rfl

theorem statements_eq (unit : String) (depth : Nat) {ns : List Node} (hne : ns ≠ []) :
    statements unit depth ns =
      "\n" ++ "\n".intercalate (ns.map fun n => indent unit depth ++ node unit depth n) := by
  induction ns with
  | nil => exact absurd rfl hne
  | cons n ns ih =>
    cases ns with
    | nil => simp [statements, newline, String.append_assoc]
    | cons m ms =>
      rw [statements, ih (by simp)]
      simp only [List.map_cons, String.intercalate_cons_cons, newline, String.append_assoc]

end Printer

namespace Lowering
open Emission Printer

theorem running_line (unit indentation t : String) : running unit indentation (line t).parts = t := by
  simp [parts, running]

theorem running_lowered_concat (unit indentation : String) {fragments : List Emission} {e : Emission}
    (h : concat fragments = .ok e) : running unit indentation e.parts =
      String.join (fragments.map fun e => running unit indentation e.parts) :=
  running_concat unit indentation (mapError_eq_ok_iff.1 h)

theorem running_lowered_join (unit indentation : String) {fragments : List Emission} {e : Emission}
    (h : join fragments = .ok e) : running unit indentation e.parts =
      ", ".intercalate (fragments.map fun e => running unit indentation e.parts) :=
  running_join unit indentation ", " (mapError_eq_ok_iff.1 h)

theorem running_parenthesize (unit indentation : String) {function : Node} {e e' : Emission}
    (h : parenthesize function e = .ok e') :
    running unit indentation e'.parts = callee function (running unit indentation e.parts) := by
  cases function with
  | function parameters body =>
    rw [parenthesize] at h
    rw [running_lowered_concat unit indentation h, callee]
    simp [running_line, String.append_assoc]
  | _ =>
    cases h
    rfl

theorem running_functionHead (unit indentation : String) {parameters : List Emission} {e : Emission}
    (h : functionHead parameters = .ok e) : running unit indentation e.parts =
      "async (" ++ ", ".intercalate (parameters.map fun e => running unit indentation e.parts) ++
        ") => \x7b" := by
  obtain ⟨list, hl, h⟩ := bind_eq_ok_iff.1 h
  rw [running_lowered_concat unit indentation h]
  simp [running_line, running_lowered_join unit indentation hl, String.append_assoc]

theorem running_functionOf (unit indentation : String) {head e : Emission} {body : List Emission}
    (h : functionOf head body = .ok e) :
    running unit indentation e.parts = running unit indentation head.parts ++
      (if body.isEmpty then "" else
        "\n" ++ flatten unit (nested unit indentation (siblings body)) (siblings body) ++
          "\n" ++ indentation) ++ "\x7d" := by
  unfold functionOf at h
  split at h
  · next he =>
    rw [running_lowered_concat unit indentation h, if_pos he]
    simp [running_line]
  · next hne =>
    have hparts : e.parts = head.parts ++ [group (siblings body), line "\x7d"] := by
      cases h
      cases head <;> rfl
    rw [hparts, running_append, if_neg hne]
    simp [running, String.append_assoc]

/-- What is lowered prints a text at every depth. -/
def Prints (unit : String) (x : Lowered Emission) (text : Nat → String) : Prop :=
  ∀ e, x = .ok e → ∀ depth, running unit (indent unit depth) e.parts = text depth

def PrintAll (unit : String) (x : Lowered (List Emission)) (texts : Nat → List String) : Prop :=
  ∀ es, x = .ok es → ∀ depth, (es.map fun e => running unit (indent unit depth) e.parts) = texts depth

section

variable {unit : String}

theorem printAll_nil : PrintAll unit (.ok []) fun _ => [] := by
  intro es h depth
  cases h
  rfl

theorem Prints.cons {x : Lowered Emission} {xs : Lowered (List Emission)} {text : Nat → String}
    {texts : Nat → List String} (hx : Prints unit x text) (hxs : PrintAll unit xs texts) :
    PrintAll unit (do let e ← x; let es ← xs; return e :: es) fun depth => text depth :: texts depth := by
  intro es h depth
  obtain ⟨e, he, h⟩ := bind_eq_ok_iff.1 h
  obtain ⟨es, hes, h⟩ := bind_eq_ok_iff.1 h
  cases h
  rw [List.map_cons, hx e he depth, hxs es hes depth]

theorem lowerList_prints {ns : List Node}
    (h : ∀ n ∈ ns, Prints unit (lower n) fun depth => node unit depth n) :
    PrintAll unit (lowerList ns) fun depth => ns.map (node unit depth) := by
  induction ns with
  | nil => exact printAll_nil
  | cons n ns ih => exact (h n (by simp)).cons (ih fun n hn => h n (by simp [hn]))

theorem lowerExpressions_prints {ns : List Node}
    (h : ∀ n ∈ ns, Prints unit (lowerExpression n) fun depth => expression unit depth n) :
    PrintAll unit (lowerExpressions ns) fun depth => ns.map (expression unit depth) := by
  induction ns with
  | nil => exact printAll_nil
  | cons n ns ih =>
    rw [lowerExpressions_cons]
    exact (h n (by simp)).cons (ih fun n hn => h n (by simp [hn]))

theorem lowerParameters_prints {parameters : List (List Node)}
    (h : ∀ ns ∈ parameters, ∀ n ∈ ns,
      Prints unit (lowerExpression n) fun depth => expression unit depth n) :
    PrintAll unit (lowerParameters parameters) fun depth => parameterList unit depth parameters := by
  induction parameters with
  | nil => exact printAll_nil
  | cons ns parameters ih =>
    have hns : Prints unit (lowerExpressions ns >>= concat) fun depth => expressions unit depth ns := by
      intro e he depth
      obtain ⟨fs, hfs, he⟩ := bind_eq_ok_iff.1 he
      rw [running_lowered_concat _ _ he, lowerExpressions_prints (h ns (by simp)) fs hfs depth]
      exact (expressions_eq unit depth ns).symm
    have hcons := hns.cons (ih fun ns hm => h ns (by simp [hm]))
    rw [bind_assoc] at hcons
    exact hcons

theorem lowerList_isEmpty {ns : List Node} {es : List Emission} (h : lowerList ns = .ok es) :
    es.isEmpty = ns.isEmpty := by
  cases ns with
  | nil =>
    cases h
    rfl
  | cons n ns =>
    obtain ⟨e, -, h⟩ := bind_eq_ok_iff.1 h
    obtain ⟨rest, -, h⟩ := bind_eq_ok_iff.1 h
    cases h
    rfl

theorem lowerList_ne_nil {ns : List Node} {es : List Emission} (h : lowerList ns = .ok es)
    (hne : ns ≠ []) : es ≠ [] := by
  rw [← List.isEmpty_eq_false_iff, lowerList_isEmpty h]
  simpa using hne

theorem flatten_lowered {ns : List Node} {es : List Emission} (hn : ∀ n ∈ ns, Named (· ≠ "") n)
    (hp : ∀ n ∈ ns, Prints unit (lower n) fun depth => node unit depth n) (hne : ns ≠ [])
    (h : lowerList ns = .ok es) (depth : Nat) :
    "\n" ++ flatten unit (nested unit (indent unit depth) (siblings es)) (siblings es) =
      statements unit (depth + 1) ns := by
  have htexts := lowerList_prints hp es h (depth + 1)
  rw [flatten_siblings (lowerList_ne_nil h hne) (lowerList_statements hn h), statements_eq unit _ hne,
    ← indent_succ]
  congr 2
  calc es.map (fun e => indent unit (depth + 1) ++ running unit (indent unit (depth + 1)) e.parts)
      = (es.map fun e => running unit (indent unit (depth + 1)) e.parts).map
          (indent unit (depth + 1) ++ ·) := by
        rw [List.map_map]
        rfl
    _ = (ns.map (node unit (depth + 1))).map (indent unit (depth + 1) ++ ·) := by rw [htexts]
    _ = ns.map fun n => indent unit (depth + 1) ++ node unit (depth + 1) n := by
        rw [List.map_map]
        rfl

theorem prints_error (err : LowerError) (text : Nat → String) : Prints unit (.error err) text := by
  intro e h
  cases h

theorem prints_line (t : String) : Prints unit (.ok (line t)) fun _ => t := by
  intro e h depth
  cases h
  exact running_line unit _ t

/-- Lowering prints what the printer writes, as a statement and as an expression of a parameter. -/
theorem lower_prints (unit : String) (n : Node) (hn : Named (· ≠ "") n) :
    Prints unit (lower n) (fun depth => node unit depth n) ∧
      Prints unit (lowerExpression n) fun depth => expression unit depth n := by
  induction n using Node.induction with
  | integer value => exact ⟨prints_line _, prints_line _⟩
  | boolean value => exact ⟨prints_line _, prints_line _⟩
  | identifier name => exact ⟨prints_line _, prints_line _⟩
  | assignment target value iht ihv =>
    obtain ⟨hnt, hnv⟩ := named_assignment.1 hn
    have ht := (iht hnt).1
    have hv := (ihv hnv).1
    constructor
    · intro e h depth
      obtain ⟨t, htarget, h⟩ := bind_eq_ok_iff.1 h
      obtain ⟨v, hvalue, h⟩ := bind_eq_ok_iff.1 h
      rw [running_lowered_concat _ _ h]
      simp [running_line, ht t htarget depth, hv v hvalue depth, node, String.append_assoc]
    · intro e h depth
      obtain ⟨t, htarget, h⟩ := bind_eq_ok_iff.1 h
      obtain ⟨v, hvalue, h⟩ := bind_eq_ok_iff.1 h
      rw [running_lowered_concat _ _ h]
      simp [running_line, ht t htarget depth, hv v hvalue depth, expression, String.append_assoc]
  | invocation function arguments ihf iha =>
    obtain ⟨hnf, hna⟩ := named_invocation.1 hn
    refine and_self_iff.2 fun e h depth => ?_
    obtain ⟨f, hf, h⟩ := bind_eq_ok_iff.1 h
    obtain ⟨head, hhead, h⟩ := bind_eq_ok_iff.1 h
    obtain ⟨as, has, h⟩ := bind_eq_ok_iff.1 h
    obtain ⟨list, hlist, h⟩ := bind_eq_ok_iff.1 h
    have hargs := lowerList_prints (fun n hm => (iha n hm (hna n hm)).1) as has depth
    rw [running_lowered_concat _ _ h]
    simp [running_line, running_parenthesize _ _ hhead, (ihf hnf).1 f hf depth,
      running_lowered_join _ _ hlist, hargs, node, nodes_eq, String.append_assoc]
  | function parameters body ihp ihb =>
    obtain ⟨hnp, hnb⟩ := named_function.1 hn
    refine and_self_iff.2 fun e h depth => ?_
    obtain ⟨ps, hps, h⟩ := bind_eq_ok_iff.1 h
    obtain ⟨head, hhead, h⟩ := bind_eq_ok_iff.1 h
    obtain ⟨es, hes, h⟩ := bind_eq_ok_iff.1 h
    have hparams := lowerParameters_prints
      (fun ns hns n hm => (ihp ns hns n hm (hnp ns hns n hm)).2) ps hps depth
    have hbody := fun n hm => (ihb n hm (hnb n hm)).1
    have hlines : (if es.isEmpty then "" else
          "\n" ++ flatten unit (nested unit (indent unit depth) (siblings es)) (siblings es) ++
            "\n" ++ indent unit depth) =
        if body.isEmpty then "" else statements unit (depth + 1) body ++ newline unit depth := by
      rw [lowerList_isEmpty hes]
      split
      · rfl
      · next hne =>
        rw [flatten_lowered hnb hbody (by simpa using hne) hes depth, newline, String.append_assoc]
    rw [running_functionOf unit _ h, running_functionHead unit _ hhead, hparams, hlines]
    rfl
  | _ => exact ⟨prints_error _ _, prints_error _ _⟩

end

end Lowering

namespace Program
open Lowering Emission

theorem opening_ne_empty (config : Config) : config.opening ≠ "" := by
  intro h
  have hend : " () \x7b" = "" := (String.append_eq_empty_iff.1 h).2
  exact absurd hend (by decide)

theorem wrap_empty (config : Config) :
    wrap config (group (siblings [])) = config.opening ++ "\n" ++ Config.closing := by
  have hclosing : Config.closing ≠ "" := by decide
  simp [wrap, flatten, pieces, piece?, siblings, opening_ne_empty, hclosing]

theorem wrap_siblings (config : Config) {es : List Emission} (hne : es ≠ [])
    (h : ∀ e ∈ es, Statement (· ≠ "") e) :
    wrap config (group (siblings es)) =
      config.opening ++ ("\n" ++ flatten config.indentUnit (nested config.indentUnit "" (siblings es))
        (siblings es)) ++ "\n" ++ Config.closing := by
  have hparts : Parts (Sequence (· ≠ "")) (· ≠ "")
      [line config.opening, group (siblings es), line Config.closing] :=
    .opens _ (sequence_siblings hne h) (by decide) (.last _)
  rw [wrap, flatten_parts _ _ hparts (opening_ne_empty config)]
  simp [running, String.append_assoc]

/-- A program that is lowered, and has no empty name, is compiled to the text that the printer writes. -/
theorem compile_eq_printed (config : Config) (program : Program) (h : ∃ e, program.lower = .ok e)
    (hn : ∀ n ∈ Node.listSubnodes program, n ≠ .identifier "") :
    program.compile config = .ok (Printer.program config program) := by
  obtain ⟨e, he⟩ := h
  obtain ⟨es, hes, rfl⟩ := map_eq_ok_iff.1 he
  have hnamed : ∀ n ∈ program, Named (· ≠ "") n := fun n hm m hsub name hname hempty =>
    Node.forall_listSubnodes.1 hn n hm m hsub (by rw [hname, hempty])
  rw [compile, he]
  refine congrArg Except.ok ?_
  rw [Printer.program, show Printer.newline config.indentUnit 0 = "\n" from rfl]
  by_cases hne : program = []
  · subst hne
    cases hes
    rw [wrap_empty]
    simp [Printer.statements]
  · have hbody := flatten_lowered hnamed
      (fun n hm => (lower_prints config.indentUnit n (hnamed n hm)).1) hne hes 0
    rw [wrap_siblings config (lowerList_ne_nil hes hne) (lowerList_statements hnamed hes), ← hbody]
    rfl

def nestedFunctions : Program :=
  [.assignment (.identifier "f")
    (.function [[.assignment (.identifier "k") (.function [] [.identifier "x"])], []]
      [.integer (-1),
        .invocation (.function [[.identifier "a"]] [.identifier "a"])
          [.function [] [.boolean true], .function [] []]]),
    .invocation (.identifier "f") [.identifier "f"]]

theorem compile_nestedFunctions :
    (∃ e, nestedFunctions.lower = .ok e) ∧
    (∀ n ∈ Node.listSubnodes nestedFunctions, n ≠ .identifier "") ∧
    nestedFunctions.compile ⟨"start", "\t"⟩ = .ok ("\n".intercalate
      ["(async function start () \x7b",
        "\tconst f = async (k = async () => \x7b",
        "\t\tx",
        "\t\x7d, ) => \x7b",
        "\t\t-1",
        "\t\t(await (async (a) => \x7b",
        "\t\t\ta",
        "\t\t\x7d)(async () => \x7b",
        "\t\t\ttrue",
        "\t\t\x7d, async () => \x7b\x7d))",
        "\t\x7d",
        "\t(await f(f))",
        "\x7d())"]) := by
  have hlower : ∃ e, nestedFunctions.lower = .ok e :=
    (lower_outcome nestedFunctions).exists_ok_iff.2 rfl
  have hnames : ∀ n ∈ Node.listSubnodes nestedFunctions, n ≠ .identifier "" := by
    simp [nestedFunctions, Node.listSubnodes, Node.subnodes, Node.parameterSubnodes]
  refine ⟨hlower, hnames, (compile_eq_printed _ _ hlower hnames).trans ?_⟩
  exact congrArg Except.ok (by decide +kernel)

end Program
end AwaitScript
