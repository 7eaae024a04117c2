import AwaitScript.Proofs.ReferencePrinter
import AwaitScript.Proofs.SourceShape
import AwaitScript.Proofs.StatementBoundary

/-! Source texts that compile, and the lines of what they compile to. A text compiles exactly when all of
its nodes have a form in the target, and then to what the printer writes. Statements are printed
independently of one another, so texts below one another have the lines of each. -/
namespace AwaitScript

theorem IsName.ne_empty {name : String} (h : IsName name) : name ≠ "" := by
  rintro rfl
  obtain ⟨c, v, h, -⟩ := h
  cases h

namespace Node

abbrev IsLowerable (n : Node) : Prop := n.IsExpression fun k => k.isSupported

theorem IsStatement.isLowerable {n : Node} (h : IsStatement (fun _ => True) n)
    (hn : ∀ m ∈ n.subnodes, m.kind.isSupported) : n.IsLowerable := by
  obtain ⟨name, path, rfl, -⟩ | ⟨h, -⟩ := h
  · cases hn _ (mem_subnodes_self _)
  · exact h.restrict hn

theorem isLowerable_body {body : List Node}
    (hi : ∀ name path, .imports name path ∈ body → Kind.imports.isSupported ∧ IsName name)
    {n : Node} (hn : n ∈ body) : n.kind ≠ .imports := by
  cases n with
  | imports name path => cases (hi name path hn).1
  | _ => simp [kind]

end Node

namespace Lowering
open Node Emission

theorem named_identifier {P : String → Prop} {name : String} (h : P name) :
    Named P (.identifier name) := by
  intro m hm name' hname
  simp only [subnodes, List.mem_singleton] at hm
  cases hm.symm.trans hname
  exact h

theorem named_of_isLowerable {n : Node} (h : n.IsLowerable) : Named IsName n := by
  induction h with
  | integer | boolean =>
    intro m hm name hname
    simp only [subnodes, List.mem_singleton] at hm
    cases hm.symm.trans hname
  | identifier hk hn => exact named_identifier hn.1
  | assignment hk hn hv ih => exact named_assignment.2 ⟨named_identifier hn.1, ih⟩
  | invocation hk hc hb ha ihc iha => exact named_invocation.2 ⟨ihc, iha⟩
  | function hk hp hv hi hl hb ihv ihb =>
    refine named_function.2 ⟨fun es hes n hn => ?_, fun n hn => ihb n hn (isLowerable_body hi hn)⟩
    obtain ⟨name, hname, rfl | ⟨value, rfl⟩⟩ := hp es hes
    · rw [List.mem_singleton] at hn
      subst hn
      exact named_identifier hname
    · rw [List.mem_singleton] at hn
      subst hn
      exact named_assignment.2 ⟨named_identifier hname, ihv name value hes⟩
  | float hk | string hk | destructuredAssignment hk | object hk | array hk => cases hk

theorem wrap_lowered (config : Config) {program : Program} {es : List Emission}
    (hn : ∀ n ∈ program, Named (· ≠ "") n) (h : lowerList program = .ok es) :
    wrap config (group (siblings es)) = Printer.program config program := by
  cases program with
  | nil =>
    cases h
    rw [Program.wrap_empty]
    simp [Printer.program, Printer.statements, Printer.newline, Printer.indent]
  | cons n ns =>
    have hprints := fun m hm => (lower_prints config.indentUnit m (hn m hm)).1
    have hbody := flatten_lowered hn hprints (List.cons_ne_nil n ns) h 0
    rw [Program.wrap_siblings config (lowerList_ne_nil h (List.cons_ne_nil n ns)) (lowerList_statements hn h)]
    rw [Printer.program, ← hbody]
    rfl

end Lowering

namespace Source
open Lowering

theorem isLowerable_of_parse {source : String} {program : Program} (h : parse source = .ok program)
    (hs : ∀ n ∈ Node.listSubnodes program, n.kind.isSupported) : ∀ n ∈ program, n.IsLowerable := by
  rw [Node.forall_listSubnodes] at hs
  exact fun n hn => (isStatement_of_parse h n hn).isLowerable (hs n hn)

/-- A source text compiles exactly when it says a program all of whose nodes have a form in the target,
and it compiles to the text that is printed for this program. -/
theorem compile_eq_ok_iff {config : Config} {source output : String} :
    compile config source = .ok output ↔
      ∃ program, parse source = .ok program ∧
        (∀ n ∈ Node.listSubnodes program, n.kind.isSupported) ∧
        Printer.program config program = output := by
  have hcompile : compile config source = .ok output ↔
      ∃ program, parse source = .ok program ∧ ∃ es, lowerList program = .ok es ∧
        Emission.wrap config (.group (siblings es)) = output := by
    simp only [compile, bind_eq_ok_iff, Source.program, mapError_eq_ok_iff, Program.compile,
      Program.lower, map_eq_ok_iff, exists_exists_and_eq_and]
  rw [hcompile]
  refine exists_congr fun program => and_congr_right fun hparse => ?_
  have hlower := (Program.lower_outcome program).exists_ok_iff.trans Program.firstUnsupported?_eq_none
  have hprinted {es : List Emission} (hes : lowerList program = .ok es) :
      (∀ n ∈ Node.listSubnodes program, n.kind.isSupported) ∧
        Emission.wrap config (.group (siblings es)) = Printer.program config program := by
    have hs := hlower.1 ⟨_, map_eq_ok_iff.2 ⟨es, hes, rfl⟩⟩
    refine ⟨hs, wrap_lowered config (fun n hn m hm name hname => ?_) hes⟩
    exact (named_of_isLowerable (isLowerable_of_parse hparse hs n hn) m hm name hname).ne_empty
  constructor
  · rintro ⟨es, hes, rfl⟩
    obtain ⟨hs, hw⟩ := hprinted hes
    exact ⟨hs, hw.symm⟩
  · rintro ⟨hs, rfl⟩
    obtain ⟨e, he⟩ := hlower.2 hs
    obtain ⟨es, hes, -⟩ := map_eq_ok_iff.1 he
    exact ⟨es, hes, (hprinted hes).2⟩

end Source

/-! ### Words -/

/-- The characters of a name, a number or a value. -/
def IsWordText (w : List Char) : Prop := w ≠ [] ∧ ∀ c ∈ w, Token.isWordPart c

theorem isWordPart_range {c : Char} (h : Token.isWordPart c) :
    c.toNat = 36 ∨ 48 ≤ c.toNat ∧ c.toNat < 58 ∨ 65 ≤ c.toNat ∧ c.toNat < 123 := by
  simp only [Token.isWordPart, Char.isAlphanum, Char.isAlpha, Char.isUpper, Char.isLower, Char.isDigit,
    Bool.or_eq_true, Bool.and_eq_true, decide_eq_true_eq, ge_iff_le, UInt32.le_iff_toNat_le] at h
  obtain (((⟨h₁, h₂⟩ | ⟨h₁, h₂⟩) | ⟨h₁, h₂⟩) | rfl) | rfl := h
  · exact .inr (.inr ⟨h₁, Nat.lt_of_le_of_lt h₂ (by decide)⟩)
  · exact .inr (.inr ⟨Nat.le_trans (by decide) h₁, Nat.lt_of_le_of_lt h₂ (by decide)⟩)
  · exact .inr (.inl ⟨h₁, Nat.lt_of_le_of_lt h₂ (by decide)⟩)
  · decide
  · decide

theorem IsName.isWordText {name : String} (h : IsName name) : IsWordText name.toList := by
  obtain ⟨c, v, hw, hc, hv⟩ := h
  have hpart : Token.isWordPart c := by
    simp only [Token.isWordStart, Token.isWordPart, Char.isAlphanum, Bool.or_eq_true] at hc ⊢
    tauto
  rw [hw]
  exact ⟨List.cons_ne_nil c v, List.forall_mem_cons.2 ⟨hpart, hv⟩⟩

theorem writeInt_natCast (value : Nat) : Json.writeInt value = Nat.toDigits 10 value := by
  simp [Json.writeInt]

theorem isWordText_integer (value : Nat) : IsWordText (Json.writeInt value) := by
  rw [writeInt_natCast]
  refine ⟨Nat.toDigits_ne_nil, fun c hc => ?_⟩
  have hd := Nat.isDigit_of_mem_toDigits (by decide) (by decide) hc
  simp [Token.isWordPart, Char.isAlphanum, hd]

theorem isWordText_boolean (value : Bool) : IsWordText (if value then "true" else "false").toList := by
  cases value
  · exact ⟨by decide, by simp; decide⟩
  · exact ⟨by decide, by simp; decide⟩

namespace Printer

attribute [local simp] node expressions

theorem toList_assignment (unit : String) (depth : Nat) (target value : Node) :
    (node unit depth (.assignment target value)).toList =
      "const ".toList ++ (node unit depth target).toList ++ " = ".toList ++
        (node unit depth value).toList := by
  simp only [node, String.toList_append]

theorem toList_invocation (unit : String) (depth : Nat) (function : Node) (arguments : List Node) :
    (node unit depth (.invocation function arguments)).toList =
      "(await ".toList ++ (callee function (node unit depth function)).toList ++ "(".toList ++
        (", ".intercalate (nodes unit depth arguments)).toList ++ "))".toList := by
  simp only [node, String.toList_append]

theorem toList_function (unit : String) (depth : Nat) (parameters : List (List Node))
    (body : List Node) :
    (node unit depth (.function parameters body)).toList =
      "async (".toList ++ (", ".intercalate (parameterList unit depth parameters)).toList ++
        ") => \x7b".toList ++ (if body.isEmpty then "" else
          statements unit (depth + 1) body ++ newline unit depth).toList ++ "\x7d".toList := by
  simp only [node, String.toList_append]

theorem parameterList_eq (unit : String) (depth : Nat) (parameters : List (List Node)) :
    parameterList unit depth parameters = parameters.map (expressions unit depth) := by
  induction parameters with
  | nil => rfl
  | cons es parameters ih => rw [parameterList, ih, List.map_cons]

theorem toList_parameter (unit : String) (depth : Nat) (name : String) :
    (expressions unit depth [.identifier name]).toList = name.toList := by
  simp

theorem toList_default (unit : String) (depth : Nat) (name : String) (value : Node) :
    (expressions unit depth [.assignment (.identifier name) value]).toList =
      name.toList ++ " = ".toList ++ (node unit depth value).toList := by
  simp

theorem node_head (unit : String) (depth : Nat) {n : Node} (h : n.IsLowerable) :
    ∃ c cs, (node unit depth n).toList = c :: cs ∧ (c = '(' ∨ Token.isWordPart c) := by
  have hword {w : List Char} (hw : IsWordText w) :
      ∃ c cs, w = c :: cs ∧ (c = '(' ∨ Token.isWordPart c) := by
    obtain ⟨c, cs, rfl⟩ := List.exists_cons_of_ne_nil hw.1
    exact ⟨c, cs, rfl, .inr (hw.2 c (by simp))⟩
  cases h with
  | integer hk value =>
    rw [node, String.toList_ofList]
    exact hword (isWordText_integer value)
  | boolean hk value =>
    rw [node]
    exact hword (isWordText_boolean value)
  | identifier hk hn =>
    rw [node]
    exact hword hn.1.isWordText
  | assignment =>
    rw [toList_assignment]
    exact ⟨'c', _, rfl, .inr (by decide)⟩
  | invocation =>
    rw [toList_invocation]
    exact ⟨'(', _, rfl, .inl rfl⟩
  | function =>
    rw [toList_function]
    exact ⟨'a', _, rfl, .inr (by decide)⟩
  | float hk | string hk | destructuredAssignment hk | object hk | array hk => cases hk

end Printer

/-! ### Lines -/

namespace Printer

def lines (text : String) : List String := (text.toList.splitOn '\n').map String.ofList

/-- The lines between the first and the last. -/
def innerLines (text : String) : List String := (lines text).tail.dropLast

theorem lines_append_newline (u v : String) : lines (u ++ "\n" ++ v) = lines u ++ lines v := by
  simp [lines, List.splitOn_append_cons_self]

theorem lines_of_not_mem {text : String} (h : '\n' ∉ text.toList) : lines text = [text] := by
  simp [lines, List.splitOn_eq_singleton h]

theorem lines_statements (unit : String) (depth : Nat) (u : String) (ns : List Node) :
    lines (u ++ statements unit depth ns) =
      lines u ++ ns.flatMap fun n => lines (indent unit depth ++ node unit depth n) := by
  induction ns generalizing u with
  | nil => simp [statements]
  | cons n ns ih =>
    calc lines (u ++ statements unit depth (n :: ns))
        = lines (u ++ "\n" ++ (indent unit depth ++ node unit depth n ++ statements unit depth ns)) := by
          rw [statements, newline]
          simp only [String.append_assoc]
      _ = lines u ++ lines (indent unit depth ++ node unit depth n ++ statements unit depth ns) :=
          lines_append_newline _ _
      _ = lines u ++ (lines (indent unit depth ++ node unit depth n) ++
            ns.flatMap fun n => lines (indent unit depth ++ node unit depth n)) := by rw [ih]

theorem opening_toList (config : Config) : config.opening.toList =
    "(async function ".toList ++ config.entryPoint.toList ++ " () \x7b".toList := by
  change ("(async function " ++ config.entryPoint ++ " () \x7b").toList = _
  rw [String.toList_append, String.toList_append]

theorem opening_not_mem {config : Config} (h : '\n' ∉ config.entryPoint.toList) :
    '\n' ∉ config.opening.toList := by
  rw [opening_toList]
  exact List.not_mem_append (List.not_mem_append (by decide) h) (by decide)

theorem innerLines_program {config : Config} (h : '\n' ∉ config.entryPoint.toList)
    (program : Program) : innerLines (Printer.program config program) =
      program.flatMap fun n => lines (indent config.indentUnit 1 ++ node config.indentUnit 1 n) := by
  have hlines : lines (Printer.program config program) = config.opening ::
      (program.flatMap fun n => lines (indent config.indentUnit 1 ++ node config.indentUnit 1 n)) ++
        [Config.closing] := by
    have hnewline : newline config.indentUnit 0 = "\n" := rfl
    have hclosing : lines Config.closing = [Config.closing] := lines_of_not_mem (by decide)
    rw [Printer.program, hnewline, lines_append_newline, lines_statements,
      lines_of_not_mem (opening_not_mem h), hclosing]
    rfl
  rw [innerLines, hlines, List.cons_append, List.tail_cons, List.dropLast_concat]

end Printer

namespace Source

/-- Two texts that compile, one below the other, compile to the lines of the first and then those of the
second, inside of one entry point. -/
theorem compile_append_newline {config : Config} (hentry : '\n' ∉ config.entryPoint.toList)
    {a b x y : String} (ha : compile config a = .ok x) (hb : compile config b = .ok y) :
    ∃ z, compile config (a ++ "\n" ++ b) = .ok z ∧
      Printer.innerLines z = Printer.innerLines x ++ Printer.innerLines y := by
  obtain ⟨p, hp, hps, rfl⟩ := compile_eq_ok_iff.1 ha
  obtain ⟨q, hq, hqs, rfl⟩ := compile_eq_ok_iff.1 hb
  obtain ⟨ss, hss, hp⟩ := parse_eq_ok_iff.1 hp
  obtain ⟨ts, hts, hq⟩ := parse_eq_ok_iff.1 hq
  have hparse : parse (a ++ "\n" ++ b) = .ok (p ++ q) :=
    parse_eq_ok_iff.2 ⟨ss ++ ts, by simpa using surface_append_newline hss hts,
      Surface.elaborateStatements_append hp hq⟩
  have hsupported : ∀ n ∈ Node.listSubnodes (p ++ q), n.kind.isSupported := by
    rw [Node.forall_listSubnodes] at hps hqs ⊢
    exact List.forall_mem_append.2 ⟨hps, hqs⟩
  refine ⟨_, compile_eq_ok_iff.2 ⟨p ++ q, hparse, hsupported, rfl⟩, ?_⟩
  rw [Printer.innerLines_program hentry, Printer.innerLines_program hentry,
    Printer.innerLines_program hentry, List.flatMap_append]

theorem compile_block_below :
    '\n' ∉ "run".toList ∧
      compile ⟨"run", "\t"⟩ "f(x)" = .ok "(async function run () \x7b\n\t(await f(x))\n\x7d())" ∧
      compile ⟨"run", "\t"⟩ "(y) => \x7b y \x7d" =
        .ok "(async function run () \x7b\n\tasync (y) => \x7b\n\t\ty\n\t\x7d\n\x7d())" ∧
      ∃ z, compile ⟨"run", "\t"⟩ ("f(x)" ++ "\n" ++ "(y) => \x7b y \x7d") = .ok z ∧
        Printer.innerLines z = ["\t(await f(x))", "\tasync (y) => \x7b", "\t\ty", "\t\x7d"] := by
  have hentry : '\n' ∉ "run".toList := by decide
  have ha : compile ⟨"run", "\t"⟩ "f(x)" =
      .ok "(async function run () \x7b\n\t(await f(x))\n\x7d())" := by cbv
  have hb : compile ⟨"run", "\t"⟩ "(y) => \x7b y \x7d" =
      .ok "(async function run () \x7b\n\tasync (y) => \x7b\n\t\ty\n\t\x7d\n\x7d())" := by cbv
  obtain ⟨z, hz, hlines⟩ := compile_append_newline hentry ha hb
  exact ⟨hentry, ha, hb, z, hz, hlines.trans (by cbv)⟩

end Source

end AwaitScript
