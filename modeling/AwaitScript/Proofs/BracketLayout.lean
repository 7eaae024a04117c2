import AwaitScript.Proofs.CompiledSource

/-! The layout of compiled programs: brackets are nested, and a line is indented once for each brace that
is open before it. Both are kept by every piece of text that the printer puts together. -/
namespace AwaitScript

namespace Layout

inductive Bracket where
  | paren
  | brace
deriving DecidableEq

def Bracket.pop (b : Bracket) : List Bracket → Option (List Bracket)
  | [] => none
  | top :: rest => if top = b then some rest else none

/-- The open brackets after a character, the innermost first. A bracket closes only one of its kind. -/
def step (stack : List Bracket) : Char → Option (List Bracket)
  | '(' => some (.paren :: stack)
  | ')' => Bracket.paren.pop stack
  | '\x7b' => some (.brace :: stack)
  | '\x7d' => Bracket.brace.pop stack
  | _ => some stack

def openAfter (stack : List Bracket) (text : List Char) : Option (List Bracket) := text.foldlM step stack

theorem openAfter_append {stack stack' : List Bracket} {u : List Char} (h : openAfter stack u = some stack')
    (v : List Char) : openAfter stack (u ++ v) = openAfter stack' v := by
  unfold openAfter at h ⊢
  rw [List.foldlM_append, h]
  rfl

def isBracket (c : Char) : Bool := c = '(' || c = ')' || c = '\x7b' || c = '\x7d'

def IsPlain (c : Char) : Prop := isBracket c = false ∧ c ≠ '\n'

theorem step_of_not_isBracket (stack : List Bracket) {c : Char} (h : isBracket c = false) :
    step stack c = some stack := by
  simp only [isBracket, Bool.or_eq_false_iff, decide_eq_false_iff_not] at h
  unfold step
  split <;> simp_all

theorem openAfter_of_not_isBracket (stack : List Bracket) {text : List Char}
    (h : ∀ c ∈ text, isBracket c = false) : openAfter stack text = some stack := by
  induction text with
  | nil => rfl
  | cons c text ih =>
    rw [List.forall_mem_cons] at h
    rw [openAfter, List.foldlM_cons, step_of_not_isBracket stack h.1]
    exact ih h.2

def Visible (c : Char) : Prop := 0x20 < c.toNat ∧ c.toNat < 0x7f

instance (c : Char) : Decidable (Visible c) := inferInstanceAs (Decidable (_ ∧ _))

/-- The text starts with the indentation for the open braces, where a brace that it closes first does not
count, and then something visible. -/
def Indented (unit : String) (stack : List Bracket) (text : List Char) : Prop :=
  ∃ depth c rest, text = (Printer.indent unit depth).toList ++ c :: rest ∧ Visible c ∧
    depth + (if c = '\x7d' then 1 else 0) = stack.count .brace

/-- The brackets of a text lead from one stack to the other, and each line that starts in the text is
indented for the brackets that are open there. -/
structure Laid (unit : String) (stack : List Bracket) (text : List Char) (stack' : List Bracket) :
    Prop where
  nested : openAfter stack text = some stack'
  indented : ∀ before after, text = before ++ '\n' :: after →
    ∃ inner, openAfter stack before = some inner ∧ Indented unit inner after

section

variable {unit : String} {stack : List Bracket}

theorem laid_line {stack' : List Bracket} {text : List Char} (h : openAfter stack text = some stack')
    (hn : '\n' ∉ text) : Laid unit stack text stack' := by
  refine ⟨h, fun before after htext => ?_⟩
  rw [htext] at hn
  simp at hn

theorem laid_plain {text : List Char} (h : ∀ c ∈ text, IsPlain c) : Laid unit stack text stack :=
  laid_line (openAfter_of_not_isBracket stack fun c hc => (h c hc).1) fun hn => (h _ hn).2 rfl

theorem Laid.append {s₁ s₂ : List Bracket} {u v : List Char} (hu : Laid unit stack u s₁)
    (hv : Laid unit s₁ v s₂) : Laid unit stack (u ++ v) s₂ := by
  refine ⟨(openAfter_append hu.nested v).trans hv.nested, fun before after h => ?_⟩
  obtain ⟨x, rfl, hx⟩ | ⟨x, rfl, hx⟩ := List.append_eq_append_iff.1 h
  · obtain ⟨inner, hi, hin⟩ := hv.indented x after hx
    exact ⟨inner, (openAfter_append hu.nested x).trans hi, hin⟩
  · cases x with
    | nil =>
      obtain ⟨inner, hi, hin⟩ := hv.indented [] after hx.symm
      rw [List.append_nil] at hu
      exact ⟨inner, hu.nested.trans hi, hin⟩
    | cons c x =>
      obtain ⟨rfl, rfl⟩ := List.cons.inj hx
      obtain ⟨inner, hi, depth, c, rest, rfl, hc⟩ := hu.indented before x rfl
      exact ⟨inner, hi, depth, c, rest ++ v, by simp, hc⟩

theorem plain_indent (h : ∀ c ∈ unit.toList, IsPlain c) (depth : Nat) :
    ∀ c ∈ (Printer.indent unit depth).toList, IsPlain c :=
  fun c hc => h c (Printer.mem_indent hc)

theorem Laid.newline (hunit : ∀ c ∈ unit.toList, IsPlain c) {stack' : List Bracket} {depth : Nat}
    {c : Char} {text : List Char} (hc : Visible c)
    (hd : depth + (if c = '\x7d' then 1 else 0) = stack.count .brace)
    (h : Laid unit stack (c :: text) stack') :
    Laid unit stack ((Printer.newline unit depth).toList ++ c :: text) stack' := by
  have hindent := (laid_plain (plain_indent hunit depth)).append h
  rw [Printer.newline, String.toList_append, List.append_assoc]
  refine ⟨hindent.nested, fun before after htext => ?_⟩
  cases before with
  | nil => exact ⟨stack, rfl, depth, c, text, (List.cons.inj htext).2.symm, hc, hd⟩
  | cons b before =>
    obtain ⟨hb, hrest⟩ := List.cons.inj htext
    obtain ⟨inner, hi, hin⟩ := hindent.indented before after hrest
    exact ⟨inner, by rw [← hb]; exact hi, hin⟩

theorem Laid.closingLine (hunit : ∀ c ∈ unit.toList, IsPlain c) {stack' : List Bracket} {depth : Nat}
    {text : List Char} (hd : depth + 1 = stack.count .brace) (h : Laid unit stack ('\x7d' :: text) stack') :
    Laid unit stack ((Printer.newline unit depth).toList ++ '\x7d' :: text) stack' :=
  .newline hunit (by decide) (by simpa using hd) h

theorem laid_intercalate {separator : String} (hs : Laid unit stack separator.toList stack)
    {texts : List String} (h : ∀ t ∈ texts, Laid unit stack t.toList stack) :
    Laid unit stack (separator.intercalate texts).toList stack := by
  induction texts with
  | nil => exact laid_line rfl nofun
  | cons t texts ih =>
    rw [List.forall_mem_cons] at h
    cases texts with
    | nil => simpa using h.1
    | cons t' texts =>
      rw [String.intercalate_cons_cons, String.toList_append, String.toList_append]
      exact (h.1.append hs).append (ih h.2)

end

/-! ### What the printer writes -/

theorem visible_of_isWordPart {c : Char} (h : Token.isWordPart c) : Visible c := by
  have hrange := isWordPart_range h
  unfold Visible
  omega

theorem plain_of_isWordPart {c : Char} (h : Token.isWordPart c) : IsPlain c := by
  have hne {d : Char} (hd : Token.isWordPart d = false) : c ≠ d := by
    rintro rfl
    rw [h] at hd
    cases hd
  have hp : c ≠ '(' := hne (by decide)
  have hq : c ≠ ')' := hne (by decide)
  have hb : c ≠ '\x7b' := hne (by decide)
  have hc : c ≠ '\x7d' := hne (by decide)
  exact ⟨by simp [isBracket, hp, hq, hb, hc], hne (by decide)⟩

section

variable {unit : String} {depth : Nat}

/-- The text closes the brackets that it opens, wherever it stands at this depth. -/
def Closed (unit : String) (depth : Nat) (text : List Char) : Prop :=
  ∀ stack : List Bracket, stack.count .brace = depth → Laid unit stack text stack

theorem closed_word {w : List Char} (h : IsWordText w) : Closed unit depth w :=
  fun _ _ => laid_plain fun c hc => plain_of_isWordPart (h.2 c hc)

theorem Closed.inParen {text : List Char} (h : Closed unit depth text) {stack : List Bracket}
    (hd : stack.count .brace = depth) : Laid unit (.paren :: stack) text (.paren :: stack) :=
  h _ (by simpa using hd)

theorem closed_binding {name value : List Char} (hn : IsWordText name) (hv : Closed unit depth value) :
    Closed unit depth (name ++ " = ".toList ++ value) := by
  intro stack hd
  have hequals : Laid unit stack " = ".toList stack := laid_line rfl (by decide)
  exact ((closed_word hn stack hd).append hequals).append (hv stack hd)

theorem closed_statements (hunit : ∀ c ∈ unit.toList, IsPlain c) {ns : List Node}
    (hn : ∀ n ∈ ns, n.IsLowerable) (h : ∀ n ∈ ns, Closed unit depth (Printer.node unit depth n).toList) :
    Closed unit depth (Printer.statements unit depth ns).toList := by
  intro stack hd
  induction ns with
  | nil => exact laid_line rfl nofun
  | cons n ns ih =>
    rw [List.forall_mem_cons] at hn h
    rw [Printer.statements, String.toList_append, String.toList_append]
    refine Laid.append ?_ (ih hn.2 h.2)
    obtain ⟨c, cs, hcs, hc⟩ := Printer.node_head unit depth hn.1
    have hvisible : Visible c ∧ c ≠ '\x7d' := by
      obtain rfl | hc := hc
      · exact ⟨by decide, by decide⟩
      · refine ⟨visible_of_isWordPart hc, ?_⟩
        rintro rfl
        exact absurd hc (by decide)
    rw [hcs]
    apply Laid.newline hunit hvisible.1
    · rw [if_neg hvisible.2, hd]
      rfl
    · rw [← hcs]
      exact h.1 stack hd

theorem closed_callee (f : Node) {text : String} (h : Closed unit depth text.toList) :
    Closed unit depth (Printer.callee f text).toList := by
  intro stack hd
  unfold Printer.callee
  split
  · have hopen : Laid unit stack "(".toList (.paren :: stack) := laid_line rfl (by decide)
    have hclose : Laid unit (.paren :: stack) ")".toList stack := laid_line rfl (by decide)
    rw [String.toList_append, String.toList_append]
    exact (hopen.append (h.inParen hd)).append hclose
  · exact h stack hd

theorem closed_invocation {f : Node} {arguments : List Node}
    (hf : Closed unit depth (Printer.node unit depth f).toList)
    (ha : ∀ n ∈ arguments, Closed unit depth (Printer.node unit depth n).toList) :
    Closed unit depth (Printer.node unit depth (.invocation f arguments)).toList := by
  intro stack hd
  have hawait : Laid unit stack "(await ".toList (.paren :: stack) := laid_line rfl (by decide)
  have hopen : Laid unit (.paren :: stack) "(".toList (.paren :: .paren :: stack) :=
    laid_line rfl (by decide)
  have hcomma : Laid unit (.paren :: .paren :: stack) ", ".toList (.paren :: .paren :: stack) :=
    laid_line rfl (by decide)
  have hclose : Laid unit (.paren :: .paren :: stack) "))".toList stack := laid_line rfl (by decide)
  have hcallee := (closed_callee f hf).inParen hd
  rw [Printer.toList_invocation]
  refine (((hawait.append hcallee).append hopen).append (laid_intercalate hcomma ?_)).append hclose
  rw [Printer.nodes_eq]
  exact List.forall_mem_map.2 fun n hn => (ha n hn).inParen (by simpa using hd)

theorem closed_function (hunit : ∀ c ∈ unit.toList, IsPlain c) {parameters : List (List Node)}
    {body : List Node}
    (hp : ∀ es ∈ parameters, Closed unit depth (Printer.expressions unit depth es).toList)
    (hb : Closed unit (depth + 1) (Printer.statements unit (depth + 1) body).toList) :
    Closed unit depth (Printer.node unit depth (.function parameters body)).toList := by
  intro stack hd
  have hopen : Laid unit stack "async (".toList (.paren :: stack) := laid_line rfl (by decide)
  have hcomma : Laid unit (.paren :: stack) ", ".toList (.paren :: stack) := laid_line rfl (by decide)
  have harrow : Laid unit (.paren :: stack) ") => \x7b".toList (.brace :: stack) :=
    laid_line rfl (by decide)
  have hclose : Laid unit (.brace :: stack) "\x7d".toList stack := laid_line rfl (by decide)
  have hparameters : ∀ t ∈ Printer.parameterList unit depth parameters,
      Laid unit (.paren :: stack) t.toList (.paren :: stack) := by
    rw [Printer.parameterList_eq, List.forall_mem_map]
    exact fun es hes => (hp es hes).inParen hd
  have hhead := (hopen.append (laid_intercalate hcomma hparameters)).append harrow
  rw [Printer.toList_function]
  split
  · exact (hhead.append (laid_line rfl (by decide))).append hclose
  · have hbody := hb (.brace :: stack) (by simpa using hd)
    have hend : Laid unit (.brace :: stack)
        ((Printer.newline unit depth).toList ++ "\x7d".toList) stack :=
      Laid.closingLine hunit (by simpa using hd.symm) hclose
    simpa only [String.toList_append, List.append_assoc] using hhead.append (hbody.append hend)

theorem closed_node (hunit : ∀ c ∈ unit.toList, IsPlain c) {n : Node} (h : n.IsLowerable) :
    Closed unit depth (Printer.node unit depth n).toList := by
  induction h generalizing depth with
  | integer hk value =>
    rw [Printer.node, String.toList_ofList]
    exact closed_word (isWordText_integer value)
  | boolean hk value =>
    rw [Printer.node]
    exact closed_word (isWordText_boolean value)
  | identifier hk hn =>
    rw [Printer.node]
    exact closed_word hn.1.isWordText
  | assignment hk hn hv ih =>
    intro stack hd
    have hconst : Laid unit stack "const ".toList stack := laid_line rfl (by decide)
    rw [Printer.toList_assignment, Printer.node]
    simpa only [List.append_assoc] using hconst.append (closed_binding hn.1.isWordText ih stack hd)
  | invocation hk hc hb ha ihc iha => exact closed_invocation ihc fun n hn => iha n hn
  | function hk hp hv hi hl hb ihv ihb =>
    refine closed_function hunit (fun es hes => ?_) (closed_statements hunit ?_ ?_)
    · obtain ⟨name, hname, rfl | ⟨value, rfl⟩⟩ := hp es hes
      · rw [Printer.toList_parameter]
        exact closed_word hname.isWordText
      · rw [Printer.toList_default]
        exact closed_binding hname.isWordText (ihv name value hes)
    · exact fun n hn => hb n hn (Node.isLowerable_body hi hn)
    · exact fun n hn => ihb n hn (Node.isLowerable_body hi hn)
  | float hk | string hk | destructuredAssignment hk | object hk | array hk => cases hk

end

theorem laid_program {config : Config} (hentry : ∀ c ∈ config.entryPoint.toList, IsPlain c)
    (hunit : ∀ c ∈ config.indentUnit.toList, IsPlain c) {program : Program}
    (h : ∀ n ∈ program, n.IsLowerable) :
    Laid config.indentUnit [] ('\n' :: (Printer.program config program).toList) [] := by
  have hasync : Laid config.indentUnit [] "(async function ".toList [.paren] := laid_line rfl (by decide)
  have hbrace : Laid config.indentUnit [.paren] " () \x7b".toList [.brace, .paren] :=
    laid_line rfl (by decide)
  have hopening : Laid config.indentUnit [] config.opening.toList [.brace, .paren] := by
    rw [Printer.opening_toList]
    exact (hasync.append (laid_plain hentry)).append hbrace
  have hbody : Laid config.indentUnit [.brace, .paren]
      (Printer.statements config.indentUnit 1 program).toList [.brace, .paren] :=
    closed_statements hunit h (fun n hn => closed_node hunit (h n hn)) _ rfl
  have hclosing : Laid config.indentUnit [.brace, .paren]
      ((Printer.newline config.indentUnit 0).toList ++ Config.closing.toList) [] :=
    Laid.closingLine hunit rfl (laid_line rfl (by decide))
  have hprogram : Laid config.indentUnit [] (Printer.program config program).toList [] := by
    simpa only [Printer.program, String.toList_append, List.append_assoc] using
      (hopening.append hbody).append hclosing
  obtain ⟨rest, hrest⟩ : ∃ rest, (Printer.program config program).toList = '(' :: rest := by
    simp only [Printer.program, String.toList_append, Printer.opening_toList, List.append_assoc]
    exact ⟨_, rfl⟩
  have hnewline : ['\n'] = (Printer.newline config.indentUnit 0).toList := by
    simp [Printer.newline, Printer.indent]
  rw [← List.singleton_append, hnewline, hrest]
  rw [hrest] at hprogram
  exact .newline hunit (by decide) rfl hprogram

/-! ### Lines -/

theorem newline_cons_toList (text : String) :
    '\n' :: text.toList = (Printer.lines text).flatMap fun line => '\n' :: line.toList := by
  have hjoin {ls : List (List Char)} (h : ls ≠ []) :
      '\n' :: ['\n'].intercalate ls = ls.flatMap ('\n' :: ·) := by
    induction ls with
    | nil => exact absurd rfl h
    | cons l ls ih =>
      cases ls with
      | nil => simp
      | cons l' ls =>
        rw [List.intercalate_cons_cons, List.flatMap_cons, ← ih (List.cons_ne_nil l' ls)]
        simp
  rw [Printer.lines, List.flatMap_map]
  simp only [String.toList_ofList]
  rw [← hjoin (List.splitOn_ne_nil '\n' text.toList), List.intercalate_splitOn]

theorem openAfter_lines (stack : List Bracket) (ls : List String) :
    openAfter stack (ls.flatMap fun line => '\n' :: line.toList) =
      openAfter stack (ls.flatMap String.toList) := by
  induction ls generalizing stack with
  | nil => rfl
  | cons l ls ih =>
    simp only [List.flatMap_cons, openAfter, List.foldlM_append] at ih ⊢
    exact bind_congr ih

theorem Indented.line {unit : String} (hunit : ∀ c ∈ unit.toList, IsPlain c) {stack : List Bracket}
    {line rest : List Char} (h : Indented unit stack (line ++ rest))
    (hrest : ∀ c, rest.head? = some c → c = '\n') : Indented unit stack line := by
  obtain ⟨depth, c, tail, htext, hc, hd⟩ := h
  have hfront : '\n' ∉ (Printer.indent unit depth).toList ++ [c] := by
    refine List.not_mem_append (fun hn => (plain_indent hunit depth _ hn).2 rfl) fun hn => ?_
    rw [← List.mem_singleton.1 hn] at hc
    exact absurd hc (by decide)
  rw [← List.singleton_append, ← List.append_assoc] at htext
  obtain ⟨x, hx, rfl⟩ | ⟨x, rfl, -⟩ := List.append_eq_append_iff.1 htext
  · cases x with
    | nil => exact ⟨depth, c, [], by simpa using hx.symm, hc, hd⟩
    | cons b x =>
      obtain rfl : b = '\n' := hrest b rfl
      exact absurd (by simp [hx]) hfront
  · exact ⟨depth, c, x, by simp, hc, hd⟩

end Layout

namespace Source
open Layout

/-- The brackets of a compiled text are nested, and each of its lines is indented for the braces that the
lines before it leave open. -/
theorem compile_layout {config : Config} (hentry : ∀ c ∈ config.entryPoint.toList, IsPlain c)
    (hunit : ∀ c ∈ config.indentUnit.toList, IsPlain c) {source output : String}
    (h : compile config source = .ok output) :
    openAfter [] output.toList = some [] ∧
      ∀ before line after, Printer.lines output = before ++ line :: after →
        ∃ stack, openAfter [] (before.flatMap String.toList) = some stack ∧
          Indented config.indentUnit stack line.toList := by
  obtain ⟨program, hparse, hs, rfl⟩ := compile_eq_ok_iff.1 h
  have hlaid := laid_program hentry hunit (isLowerable_of_parse hparse hs)
  have hnewline : openAfter [] ['\n'] = some [] := rfl
  refine ⟨(openAfter_append hnewline _).symm.trans hlaid.nested, fun before line after hlines => ?_⟩
  have htext := newline_cons_toList (Printer.program config program)
  rw [hlines, List.flatMap_append, List.flatMap_cons, List.cons_append] at htext
  obtain ⟨stack, hopen, hindented⟩ := hlaid.indented _ _ htext
  rw [openAfter_lines] at hopen
  refine ⟨stack, hopen, hindented.line hunit ?_⟩
  cases after with
  | nil => simp
  | cons l after => simp

theorem compile_layout_default :
    (∀ c ∈ "run".toList, IsPlain c) ∧ (∀ c ∈ "\t".toList, IsPlain c) ∧
      compile ⟨"run", "\t"⟩ "f((a = () => \x7b b \x7d) => \x7b a() \x7d)" = .ok ("\n".intercalate
        ["(async function run () \x7b", "\t(await f(async (a = async () => \x7b", "\t\tb",
          "\t\x7d) => \x7b", "\t\t(await a())", "\t\x7d))", "\x7d())"]) ∧
      ∃ stack, openAfter [] (["(async function run () \x7b", "\t(await f(async (a = async () => \x7b",
          "\t\tb"].flatMap String.toList) = some stack ∧
        Indented "\t" stack "\t\x7d) => \x7b".toList := by
  have hentry : ∀ c ∈ "run".toList, IsPlain c := by simp [IsPlain, isBracket]
  have hunit : ∀ c ∈ "\t".toList, IsPlain c := by simp [IsPlain, isBracket]
  have hcompile : compile ⟨"run", "\t"⟩ "f((a = () => \x7b b \x7d) => \x7b a() \x7d)" = .ok
      ("\n".intercalate ["(async function run () \x7b", "\t(await f(async (a = async () => \x7b", "\t\tb",
        "\t\x7d) => \x7b", "\t\t(await a())", "\t\x7d))", "\x7d())"]) := by
    cbv
  refine ⟨hentry, hunit, hcompile, (compile_layout hentry hunit hcompile).2 _ _
    ["\t\t(await a())", "\t\x7d))", "\x7d())"] ?_⟩
  cbv

end Source
end AwaitScript
