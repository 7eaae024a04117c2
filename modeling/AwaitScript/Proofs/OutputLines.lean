import AwaitScript.Compile.Statistics
import AwaitScript.Proofs.CompiledSource
import AwaitScript.Proofs.EncodedText

/-! The number of lines of a compiled text. Every statement, at whatever level, starts a line; a function
with statements ends with a line of its own, and two lines are those of the entry point. -/
namespace AwaitScript

/-! ### Statements and bodies -/

def Node.body? : Node → Option (List Node)
  | .function _ body => some body
  | _ => none

namespace Program

def bodies (program : Program) : List (List Node) := (Node.listSubnodes program).filterMap Node.body?

def statementTotal (program : Program) : Nat := program.length + (program.bodies.map List.length).sum

def blockTotal (program : Program) : Nat := program.bodies.countP fun body => !body.isEmpty

end Program

namespace Node

def ownBreaks (n : Node) : Nat :=
  match n.body? with
  | some body => body.length + if body.isEmpty then 0 else 1
  | none => 0

def breaks (n : Node) : Nat := (n.subnodes.map ownBreaks).sum

theorem sum_ownBreaks (ns : List Node) : (ns.map ownBreaks).sum =
    ((ns.filterMap body?).map List.length).sum + (ns.filterMap body?).countP fun body => !body.isEmpty := by
  induction ns with
  | nil => rfl
  | cons n ns ih =>
    rw [List.map_cons, List.sum_cons, ih]
    cases h : n.body? with
    | none =>
      rw [List.filterMap_cons_none h, ownBreaks, h]
      exact Nat.zero_add _
    | some body =>
      have hown : n.ownBreaks = body.length + if body.isEmpty then 0 else 1 := by rw [ownBreaks, h]
      rw [List.filterMap_cons_some h, List.map_cons, List.sum_cons, List.countP_cons, hown]
      by_cases hb : body.isEmpty
      · rw [if_pos hb, if_neg (by simp [hb])]
        omega
      · rw [if_neg hb, if_pos (by simp [hb])]
        omega

theorem sum_listSubnodes (ns : List Node) :
    ((listSubnodes ns).map ownBreaks).sum = (ns.map breaks).sum := by
  induction ns with
  | nil => rfl
  | cons n ns ih =>
    rw [listSubnodes, List.map_append, List.sum_append, ih, List.map_cons, List.sum_cons, breaks]

theorem sum_parameterSubnodes (parameters : List (List Node)) :
    ((parameterSubnodes parameters).map ownBreaks).sum =
      (parameters.map fun es => (es.map breaks).sum).sum := by
  induction parameters with
  | nil => rfl
  | cons es parameters ih =>
    rw [parameterSubnodes, List.map_append, List.sum_append, sum_listSubnodes, ih, List.map_cons,
      List.sum_cons]

theorem breaks_identifier (name : String) : (identifier name).breaks = 0 := rfl

theorem breaks_assignment (target value : Node) :
    (assignment target value).breaks = target.breaks + value.breaks := by
  simp [breaks, subnodes, ownBreaks, body?]

theorem breaks_invocation (callee : Node) (arguments : List Node) :
    (invocation callee arguments).breaks = callee.breaks + (arguments.map breaks).sum := by
  rw [← sum_listSubnodes]
  simp [breaks, subnodes, ownBreaks, body?]

theorem breaks_function (parameters : List (List Node)) (body : List Node) :
    (function parameters body).breaks =
      (parameters.map fun es => (es.map breaks).sum).sum +
        (body.map fun n => n.breaks + 1).sum + if body.isEmpty then 0 else 1 := by
  rw [← sum_parameterSubnodes, List.sum_map_add, ← sum_listSubnodes]
  simp only [breaks, subnodes, ownBreaks, body?, List.map_cons, List.map_append, List.sum_cons,
    List.sum_append, List.map_const', List.sum_replicate, smul_eq_mul, mul_one]
  omega

end Node

/-- Every statement follows a line break, and the others are those of functions with statements. -/
theorem Program.sum_breaks (program : Program) : (program.map fun n => n.breaks + 1).sum =
    program.statementTotal + program.blockTotal := by
  rw [List.sum_map_add, ← Node.sum_listSubnodes, Node.sum_ownBreaks, List.map_const', List.sum_replicate,
    statementTotal, blockTotal, bodies, smul_eq_mul, mul_one]
  omega

/-! ### Line feeds -/

namespace LineBreak

/-- The text has so many line feeds, and nothing else in it breaks a line. -/
structure Feeds (text : List Char) (n : Nat) : Prop where
  only : ∀ c ∈ text, isBreak c → c = '\n'
  count : text.count '\n' = n

theorem Feeds.append {u v : List Char} {m n : Nat} (hu : Feeds u m) (hv : Feeds v n) :
    Feeds (u ++ v) (m + n) := by
  refine ⟨List.forall_mem_append.2 ⟨hu.only, hv.only⟩, ?_⟩
  rw [List.count_append, hu.count, hv.count]

theorem feeds_zero {text : List Char} (h : ∀ c ∈ text, isBreak c = false) : Feeds text 0 := by
  have hfalse {c : Char} (hc : c ∈ text) : ¬ isBreak c := by simp [h c hc]
  refine ⟨fun c hc hb => absurd hb (hfalse hc), List.count_eq_zero.2 fun hn => ?_⟩
  exact hfalse hn (by decide)

theorem feeds_text {text : String} (h : text.toList.all fun c => !isBreak c) : Feeds text.toList 0 :=
  feeds_zero fun c hc => by simpa using List.all_eq_true.1 h c hc

/-- After its last line feed the text goes on, so it has a line more than line feeds. -/
theorem countFrom_of_feeds {text : List Char} {n : Nat} (h : Feeds text n) {c : Char}
    (hc : isBreak c = false) (started : Bool) : countFrom started (text ++ [c]) = n + 1 := by
  obtain ⟨honly, rfl⟩ := h
  induction text generalizing started with
  | nil =>
    rw [List.nil_append, countFrom, hc]
    · rfl
    · simp
  | cons a text ih =>
    rw [List.forall_mem_cons] at honly
    have hreturn : a ≠ '\r' := by
      rintro rfl
      exact absurd (honly.1 (by decide)) (by decide)
    rw [List.cons_append, countFrom]
    · by_cases ha : isBreak a
      · obtain rfl := honly.1 ha
        rw [if_pos ha, ih _ honly.2, List.count_cons_self]
      · have hne : a ≠ '\n' := by
          rintro rfl
          exact ha (by decide)
        rw [if_neg ha, ih _ honly.2, List.count_cons_of_ne hne]
    · exact fun rest h => absurd h hreturn

theorem isBreak_of_isWordPart {c : Char} (h : Token.isWordPart c) : isBreak c = false := by
  have hrange := isWordPart_range h
  simp only [isBreak, List.contains_eq_mem, decide_eq_false_iff_not, List.mem_cons, List.not_mem_nil,
    or_false]
  omega

theorem feeds_word {w : List Char} (h : IsWordText w) : Feeds w 0 :=
  feeds_zero fun c hc => isBreak_of_isWordPart (h.2 c hc)

theorem feeds_intercalate {α : Type} {separator : String} (hs : Feeds separator.toList 0) {xs : List α}
    {text : α → String} {feeds : α → Nat} (h : ∀ x ∈ xs, Feeds (text x).toList (feeds x)) :
    Feeds (separator.intercalate (xs.map text)).toList (xs.map feeds).sum := by
  induction xs with
  | nil => exact feeds_zero (by simp)
  | cons x xs ih =>
    rw [List.forall_mem_cons] at h
    cases xs with
    | nil => simpa using h.1
    | cons y ys =>
      rw [List.map_cons, List.map_cons, String.intercalate_cons_cons, String.toList_append,
        String.toList_append, List.map_cons, List.sum_cons]
      exact (h.1.append hs).append (ih h.2)

end LineBreak

/-! ### What the printer writes -/

namespace Printer
open LineBreak

variable {unit : String}

theorem feeds_newline (hunit : ∀ c ∈ unit.toList, isBreak c = false) (depth : Nat) :
    Feeds (newline unit depth).toList 1 := by
  have hindent : Feeds (indent unit depth).toList 0 := feeds_zero fun c hc => hunit c (mem_indent hc)
  have hfeed : Feeds "\n".toList 1 := ⟨by simp, rfl⟩
  rw [newline, String.toList_append]
  exact hfeed.append hindent

theorem feeds_statements (hunit : ∀ c ∈ unit.toList, isBreak c = false) (depth : Nat) {ns : List Node}
    (h : ∀ n ∈ ns, Feeds (node unit depth n).toList n.breaks) :
    Feeds (statements unit depth ns).toList (ns.map fun n => n.breaks + 1).sum := by
  induction ns with
  | nil => exact feeds_zero (by simp [statements])
  | cons n ns ih =>
    rw [List.forall_mem_cons] at h
    rw [statements, String.toList_append, String.toList_append, List.map_cons, List.sum_cons,
      Nat.add_comm n.breaks]
    exact ((feeds_newline hunit depth).append h.1).append (ih h.2)

theorem feeds_callee (function : Node) {text : String} {n : Nat} (h : Feeds text.toList n) :
    Feeds (callee function text).toList n := by
  unfold callee
  split
  · have hopen : Feeds "(".toList 0 := feeds_text (by decide)
    have hclose : Feeds ")".toList 0 := feeds_text (by decide)
    rw [String.toList_append, String.toList_append]
    simpa using (hopen.append h).append hclose
  · exact h

theorem feeds_invocation {depth : Nat} {function : Node} {arguments : List Node}
    (hf : Feeds (node unit depth function).toList function.breaks)
    (ha : ∀ n ∈ arguments, Feeds (node unit depth n).toList n.breaks) :
    Feeds (node unit depth (.invocation function arguments)).toList
      (Node.invocation function arguments).breaks := by
  have hawait : Feeds "(await ".toList 0 := feeds_text (by decide)
  have hopen : Feeds "(".toList 0 := feeds_text (by decide)
  have hcomma : Feeds ", ".toList 0 := feeds_text (by decide)
  have hclose : Feeds "))".toList 0 := feeds_text (by decide)
  have harguments := feeds_intercalate hcomma ha
  rw [toList_invocation, nodes_eq, Node.breaks_invocation]
  simpa using (((hawait.append (feeds_callee function hf)).append hopen).append harguments).append hclose

theorem feeds_function (hunit : ∀ c ∈ unit.toList, isBreak c = false) {depth : Nat}
    {parameters : List (List Node)} {body : List Node}
    (hp : ∀ es ∈ parameters, Feeds (expressions unit depth es).toList (es.map Node.breaks).sum)
    (hb : ∀ n ∈ body, Feeds (node unit (depth + 1) n).toList n.breaks) :
    Feeds (node unit depth (.function parameters body)).toList
      (Node.function parameters body).breaks := by
  have hasync : Feeds "async (".toList 0 := feeds_text (by decide)
  have hcomma : Feeds ", ".toList 0 := feeds_text (by decide)
  have harrow : Feeds ") => \x7b".toList 0 := feeds_text (by decide)
  have hclose : Feeds "\x7d".toList 0 := feeds_text (by decide)
  have hhead := (hasync.append (feeds_intercalate hcomma hp)).append harrow
  have hstatements := feeds_statements hunit (depth + 1) hb
  rw [toList_function, parameterList_eq, Node.breaks_function]
  cases body with
  | nil => simpa using hhead.append hclose
  | cons n body =>
    have hbody := hstatements.append (feeds_newline hunit depth)
    rw [← String.toList_append] at hbody
    simpa [Nat.add_assoc] using (hhead.append hbody).append hclose

theorem feeds_binding {name value : List Char} {n : Nat} (hn : IsWordText name) (hv : Feeds value n) :
    Feeds (name ++ " = ".toList ++ value) n := by
  have hequals : Feeds " = ".toList 0 := feeds_text (by decide)
  simpa using ((feeds_word hn).append hequals).append hv

theorem feeds_node (hunit : ∀ c ∈ unit.toList, isBreak c = false) {n : Node} (h : n.IsLowerable)
    (depth : Nat) : Feeds (node unit depth n).toList n.breaks := by
  induction h generalizing depth with
  | integer hk value =>
    rw [node, String.toList_ofList]
    exact feeds_word (isWordText_integer value)
  | boolean hk value =>
    rw [node]
    exact feeds_word (isWordText_boolean value)
  | identifier hk hn =>
    rw [node]
    exact feeds_word hn.1.isWordText
  | assignment hk hn hv ih =>
    have hconst : Feeds "const ".toList 0 := feeds_text (by decide)
    rw [toList_assignment, node, Node.breaks_assignment, Node.breaks_identifier]
    simpa only [List.append_assoc] using hconst.append (feeds_binding hn.1.isWordText (ih depth))
  | invocation hk hc hb ha ihc iha => exact feeds_invocation (ihc depth) fun n hn => iha n hn depth
  | function hk hp hv hi hl hb ihv ihb =>
    refine feeds_function hunit (fun es hes => ?_) fun n hn => ?_
    · obtain ⟨name, hname, rfl | ⟨value, rfl⟩⟩ := hp es hes
      · rw [toList_parameter]
        exact feeds_word hname.isWordText
      · have hbreaks : ([Node.assignment (.identifier name) value].map Node.breaks).sum = value.breaks := by
          rw [List.map_singleton, List.sum_singleton, Node.breaks_assignment, Node.breaks_identifier,
            Nat.zero_add]
        rw [toList_default, hbreaks]
        exact feeds_binding hname.isWordText (ihv name value hes depth)
    · exact ihb n hn (Node.isLowerable_body hi hn) (depth + 1)
  | float hk | string hk | destructuredAssignment hk | object hk | array hk => cases hk

theorem count_program {config : Config} (hentry : ∀ c ∈ config.entryPoint.toList, isBreak c = false)
    (hunit : ∀ c ∈ config.indentUnit.toList, isBreak c = false) {program : Program}
    (h : ∀ n ∈ program, n.IsLowerable) :
    LineBreak.count (Printer.program config program).toList =
      2 + program.statementTotal + program.blockTotal := by
  have hopening : Feeds config.opening.toList 0 := by
    have hasync : Feeds "(async function ".toList 0 := feeds_text (by decide)
    have hbrace : Feeds " () \x7b".toList 0 := feeds_text (by decide)
    rw [opening_toList]
    exact (hasync.append (feeds_zero hentry)).append hbrace
  have hstatements := feeds_statements hunit 1 fun n hn => feeds_node hunit (h n hn) 1
  have hclosing : Feeds "\x7d()".toList 0 := feeds_text (by decide)
  have hfeeds := ((hopening.append hstatements).append (feeds_newline hunit 0)).append hclosing
  have htext : (Printer.program config program).toList = config.opening.toList ++
      (statements config.indentUnit 1 program).toList ++ (newline config.indentUnit 0).toList ++
        "\x7d()".toList ++ [')'] := by
    simp [Printer.program, Config.closing]
  rw [htext, LineBreak.count, countFrom_of_feeds hfeeds (by decide), Program.sum_breaks]
  omega

end Printer

namespace Source
open LineBreak

theorem compileMeasured_of_compile {config : Config} {source output : String}
    (h : compile config source = .ok output) (clock : Clock) :
    ∃ statistics, compileMeasured config clock source = .ok (output, statistics) ∧
      statistics.outputLines = LineBreak.count output.toList := by
  obtain ⟨program, hprogram, hcompile⟩ := bind_eq_ok_iff.1 h
  refine ⟨_, bind_eq_ok_iff.2 ⟨source, ?_, bind_eq_ok_iff.2 ⟨program, hprogram,
    bind_eq_ok_iff.2 ⟨output, hcompile, rfl⟩⟩⟩, rfl⟩
  rw [Text.strict_ofString]
  rfl

/-- A text that compiles, for an entry point and an indentation without line breaks, is measured as
well. Its lines are two for the entry point, one for each statement at any level, and one for each
function with statements. -/
theorem outputLines_eq {config : Config} (hentry : ∀ c ∈ config.entryPoint.toList, isBreak c = false)
    (hunit : ∀ c ∈ config.indentUnit.toList, isBreak c = false) {source output : String}
    (h : compile config source = .ok output) (clock : Clock) :
    ∃ program statistics, parse source = .ok program ∧
      compileMeasured config clock source = .ok (output, statistics) ∧
      statistics.outputLines = 2 + program.statementTotal + program.blockTotal := by
  obtain ⟨program, hparse, hs, rfl⟩ := compile_eq_ok_iff.1 h
  obtain ⟨statistics, hmeasured, hlines⟩ := compileMeasured_of_compile h clock
  refine ⟨program, statistics, hparse, hmeasured, ?_⟩
  rw [hlines, Printer.count_program hentry hunit (isLowerable_of_parse hparse hs)]
  push_cast
  rfl

def functionsEverywhere : String :=
  "f = (a = () => \x7b b \x7d) => \x7b a 1 \x7d\n() => \x7b g() \x7d(() => \x7b\x7d)"

theorem outputLines_functionsEverywhere :
    (∀ c ∈ "run".toList, isBreak c = false) ∧ (∀ c ∈ "\t".toList, isBreak c = false) ∧
      ∃ output statistics, compile ⟨"run", "\t"⟩ functionsEverywhere = .ok output ∧
        compileMeasured ⟨"run", "\t"⟩ {} functionsEverywhere = .ok (output, statistics) ∧
        statistics.outputLines = 2 + 6 + 3 := by
  have hentry : ∀ c ∈ "run".toList, isBreak c = false := by simp; decide
  have hunit : ∀ c ∈ "\t".toList, isBreak c = false := by simp; decide
  have hcompile : compile ⟨"run", "\t"⟩ functionsEverywhere = .ok ("\n".intercalate
      ["(async function run () \x7b", "\tconst f = async (a = async () => \x7b", "\t\tb", "\t\x7d) => \x7b",
        "\t\ta", "\t\t1", "\t\x7d", "\t(await (async () => \x7b", "\t\t(await g())",
        "\t\x7d)(async () => \x7b\x7d))", "\x7d())"]) := by
    cbv
  have hparse : parse functionsEverywhere = .ok [.assignment (.identifier "f") (.function
        [[.assignment (.identifier "a") (.function [] [.identifier "b"])]] [.identifier "a", .integer 1]),
      .invocation (.function [] [.invocation (.identifier "g") []]) [.function [] []]] := by
    cbv
  obtain ⟨program, statistics, hp, hmeasured, hlines⟩ := outputLines_eq hentry hunit hcompile {}
  cases hparse.symm.trans hp
  exact ⟨hentry, hunit, _, statistics, hcompile, hmeasured, hlines⟩

end Source
end AwaitScript
