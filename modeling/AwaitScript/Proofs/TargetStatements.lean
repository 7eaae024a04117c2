import AwaitScript.Proofs.EmittedSites

/-! Statements of the target that are not what the source says. No statement is ended by more than its
line, so a call goes on with the operand that ends the line before it; and an assignment declares a name
wherever it stands, also inside of an expression. Both are told exactly, for every program that
compiles. -/
namespace AwaitScript

namespace Source
open Printer

/-- A compiled program has the shape of a source text, all of its nodes have a form in the target, and
its text is the printed one. -/
theorem compiled {config : Config} {source output : String} {program : Program}
    (hp : parse source = .ok program) (hc : compile config source = .ok output) :
    program.HasSourceShape ∧ (∀ n ∈ Node.listSubnodes program, n.kind.isSupported) ∧
      Printer.program config program = output := by
  obtain ⟨program', hp', hs, ho⟩ := compile_eq_ok_iff.1 hc
  cases hp.symm.trans hp'
  exact ⟨Program.hasSourceShape_iff.2 (isStatement_of_parse hp), hs, ho⟩

end Source

/-! ### Lines that join -/

/-- Whether the text of the node ends with the body of a function. -/
def Node.endsInFunction : Node → Bool
  | .assignment _ value => value.endsInFunction
  | .function _ _ => true
  | _ => false

/-- The first text ends with a word or a closing parenthesis and the second one starts with an opening
one, so that both are read as a call, also when a line ends between them. -/
def Joins (first second : String) : Prop :=
  (∃ c ∈ first.toList.getLast?, c = ')' ∨ Token.isWordPart c) ∧ second.toList.head? = some '('

namespace Printer

variable (unit : String) (depth : Nat) {n : Node}

theorem getLast?_of_isWordText {w : List Char} (h : IsWordText w) :
    ∃ c ∈ w.getLast?, Token.isWordPart c := by
  obtain ⟨hne, hw⟩ := h
  exact ⟨w.getLast hne, List.getLast?_eq_getLast_of_ne_nil hne, hw _ (List.getLast_mem hne)⟩

theorem mem_getLast?_append {u w : List Char} {c : Char} (h : c ∈ w.getLast?) : c ∈ (u ++ w).getLast? := by
  rw [List.getLast?_append, Option.mem_def.1 h]
  rfl

theorem node_last (h : n.IsLowerable) : ∃ c ∈ (node unit depth n).toList.getLast?,
    if n.endsInFunction then c = '\x7d' else c = ')' ∨ Token.isWordPart c := by
  have hword {w : List Char} (hw : IsWordText w) :
      ∃ c ∈ w.getLast?, c = ')' ∨ Token.isWordPart c := by
    obtain ⟨c, hc, hpart⟩ := getLast?_of_isWordText hw
    exact ⟨c, hc, .inr hpart⟩
  induction h with
  | integer hk value =>
    rw [node, String.toList_ofList]
    exact hword (isWordText_integer value)
  | boolean hk value =>
    rw [node]
    exact hword (isWordText_boolean value)
  | identifier hk hn =>
    rw [node]
    exact hword hn.1.isWordText
  | assignment hk hn hv ih =>
    obtain ⟨c, hc, hlast⟩ := ih
    rw [toList_assignment]
    exact ⟨c, mem_getLast?_append hc, hlast⟩
  | invocation =>
    rw [toList_invocation]
    exact ⟨')', mem_getLast?_append rfl, .inl rfl⟩
  | function =>
    rw [toList_function]
    exact ⟨'\x7d', mem_getLast?_append rfl, rfl⟩
  | float hk | string hk | destructuredAssignment hk | object hk | array hk => cases hk

theorem head?_node (h : n.IsLowerable) :
    (node unit depth n).toList.head? = some '(' ↔ n.kind = .invocation := by
  have hword {w : List Char} (hw : IsWordText w) : w.head? ≠ some '(' := by
    intro hhead
    exact absurd (hw.2 '(' (List.mem_of_mem_head? hhead)) (by decide)
  cases h with
  | integer hk value =>
    rw [node, String.toList_ofList]
    simpa [Node.kind] using hword (isWordText_integer value)
  | boolean hk value =>
    rw [node]
    simpa [Node.kind] using hword (isWordText_boolean value)
  | identifier hk hn =>
    rw [node]
    simpa [Node.kind] using hword hn.1.isWordText
  | assignment =>
    rw [toList_assignment]
    simp [Node.kind]
  | invocation =>
    rw [toList_invocation]
    simp [Node.kind]
  | function =>
    rw [toList_function]
    simp [Node.kind]
  | float hk | string hk | destructuredAssignment hk | object hk | array hk => cases hk

theorem joins_iff {m : Node} (hm : m.IsLowerable) (hn : n.IsLowerable) :
    Joins (node unit depth m) (node unit depth n) ↔
      m.endsInFunction = false ∧ n.kind = .invocation := by
  refine and_congr ?_ (head?_node unit depth hn)
  obtain ⟨c, hc, hlast⟩ := node_last unit depth hm
  cases hf : m.endsInFunction with
  | false =>
    rw [hf] at hlast
    simpa using ⟨c, hc, hlast⟩
  | true =>
    rw [hf] at hlast
    obtain rfl : c = '\x7d' := hlast
    refine iff_of_false ?_ (by decide)
    rintro ⟨d, hd, hoperand⟩
    obtain rfl := Option.mem_unique hd hc
    exact absurd hoperand (by decide)

end Printer

def Program.IsBody (program : Program) (body : List Node) : Prop :=
  body = program ∨ ∃ role parameters, (role, .function parameters body) ∈ program.occurrences

namespace Source
open Printer

/-- Every body of a compiled program is emitted, and of two consecutive statements in it the second goes
on with the first exactly when it is a call and the first does not end in a function. -/
theorem joins_iff_call {config : Config} {source output : String} {program : Program}
    (hp : parse source = .ok program) (hc : compile config source = .ok output) :
    (∀ body, program.IsBody body → ∃ depth before, Emits config program depth before (.block body)) ∧
      ∀ depth before ns m n ms, Emits config program depth before (.block (ns ++ m :: n :: ms)) →
        (∃ after, output = before ++ statements config.indentUnit depth ns ++
          (newline config.indentUnit depth ++ node config.indentUnit depth m) ++
          (newline config.indentUnit depth ++ node config.indentUnit depth n) ++ after) ∧
        (Joins (node config.indentUnit depth m) (node config.indentUnit depth n) ↔
          m.endsInFunction = false ∧ n.kind = .invocation) := by
  obtain ⟨hf, hs, rfl⟩ := compiled hp hc
  refine ⟨?_, fun depth before ns m n ms h => ⟨?_, ?_⟩⟩
  · rintro body (rfl | ⟨role, parameters, hmem⟩)
    · exact ⟨1, _, .program⟩
    · obtain ⟨depth, before, h⟩ := emits_of_mem_occurrences hf hs _ hmem
      exact ⟨_, _, h.part (.body depth role parameters body)⟩
  · obtain ⟨after, hafter⟩ := h.text_eq
    refine ⟨statements config.indentUnit depth ms ++ after, ?_⟩
    rw [hafter]
    simp only [Piece.text, statements_append, statements, String.append_assoc]
  · obtain ⟨_, hm⟩ := h.statement (List.mem_append_right ns (by simp) : m ∈ ns ++ m :: n :: ms)
    obtain ⟨_, hn⟩ := h.statement (List.mem_append_right ns (by simp) : n ∈ ns ++ m :: n :: ms)
    exact joins_iff config.indentUnit depth (hm.isLowerable hf hs) (hn.isLowerable hf hs)

theorem joins_in_body :
    parse "f = () => \x7b g = () => \x7b 1 \x7d\nb()\nc() \x7d" =
        .ok [.assignment (.identifier "f") (.function []
          [.assignment (.identifier "g") (.function [] [.integer 1]), .invocation (.identifier "b") [],
            .invocation (.identifier "c") []])] ∧
      ∃ depth, ¬ Joins (node "  " depth (.assignment (.identifier "g") (.function [] [.integer 1])))
          (node "  " depth (.invocation (.identifier "b") [])) ∧
        Joins (node "  " depth (.invocation (.identifier "b") []))
          (node "  " depth (.invocation (.identifier "c") [])) := by
  have hp : parse "f = () => \x7b g = () => \x7b 1 \x7d\nb()\nc() \x7d" =
      .ok [.assignment (.identifier "f") (.function []
        [.assignment (.identifier "g") (.function [] [.integer 1]), .invocation (.identifier "b") [],
          .invocation (.identifier "c") []])] := by cbv
  have hc : compile {} "f = () => \x7b g = () => \x7b 1 \x7d\nb()\nc() \x7d" =
      .ok ("(async function main () \x7b\n  const f = async () => \x7b\n    const g = async () => \x7b\n" ++
        "      1\n    \x7d\n    (await b())\n    (await c())\n  \x7d\n\x7d())") := by cbv
  obtain ⟨hbodies, hjoins⟩ := joins_iff_call hp hc
  obtain ⟨depth, before, h⟩ := hbodies [.assignment (.identifier "g") (.function [] [.integer 1]),
    .invocation (.identifier "b") [], .invocation (.identifier "c") []] (.inr ⟨.operand, [], by
      simp [Program.occurrences, Node.listOccurrences, Node.occurrences]⟩)
  have hfirst := (hjoins depth before [] _ _ [.invocation (.identifier "c") []] h).2
  have hsecond :=
    (hjoins depth before [.assignment (.identifier "g") (.function [] [.integer 1])] _ _ [] h).2
  exact ⟨hp, depth, fun hj => absurd (hfirst.1 hj).1 (by decide), hsecond.2 ⟨rfl, rfl⟩⟩

theorem call_joins_line_before : ¬ ∀ (config : Config) (source output : String) (program : Program),
    parse source = .ok program → compile config source = .ok output →
      ∀ depth before ns m n ms, Emits config program depth before (.block (ns ++ m :: n :: ms)) →
        ¬ Joins (node config.indentUnit depth m) (node config.indentUnit depth n) := by
  intro h
  have hp : parse "a\nb()" = .ok [.identifier "a", .invocation (.identifier "b") []] := by cbv
  have hc : compile {} "a\nb()" =
      .ok "(async function main () \x7b\n  a\n  (await b())\n\x7d())" := by cbv
  apply h _ _ _ _ hp hc 1 _ [] (.identifier "a") (.invocation (.identifier "b") []) [] .program
  exact ⟨⟨'a', rfl, .inr (by decide)⟩, rfl⟩

end Source

/-! ### Declarations -/

/-- Only blanks stand before this point on its line. -/
def AtLineStart (before : String) : Prop :=
  ∃ u v, before.toList = u ++ '\n' :: v ∧ ∀ c ∈ v, c = ' ' ∨ c = '\t'

theorem not_atLineStart {before : String} (u : List Char) (x : Char) (v : List Char)
    (h : before.toList = u ++ x :: v) (hx : x ≠ '\n') (hb : ¬ (x = ' ' ∨ x = '\t'))
    (hv : ∀ c ∈ v, c = ' ' ∨ c = '\t') : ¬ AtLineStart before := by
  rintro ⟨u', v', h', hv'⟩
  rw [h] at h'
  obtain ⟨w, -, hw⟩ | ⟨w, -, hw⟩ := List.append_eq_append_iff.1 h'
  · -- the line would have to start after the character
    cases w with
    | nil => exact hx (List.cons.inj hw).1
    | cons y w =>
      have hmem : '\n' ∈ v := by rw [(List.cons.inj hw).2]; simp
      exact absurd (hv _ hmem) (by decide)
  · cases w with
    | nil => exact hx (List.cons.inj hw).1.symm
    | cons y w =>
      have hmem : x ∈ v' := by rw [(List.cons.inj hw).2]; simp
      exact hb (hv' _ hmem)

/-- Just after what may stand before the value of an assignment or an argument of a call. -/
def InExpression (before : String) : Prop :=
  ∃ u, before = u ++ "(" ∨ before = u ++ ", " ∨ before = u ++ " = "

theorem InExpression.not_atLineStart {before : String} (h : InExpression before) :
    ¬ AtLineStart before := by
  obtain ⟨u, rfl | rfl | rfl⟩ := h
  · exact AwaitScript.not_atLineStart u.toList '(' [] (by simp) (by decide) (by decide) (by simp)
  · exact AwaitScript.not_atLineStart u.toList ',' [' '] (by simp) (by decide) (by decide) (by simp)
  · exact AwaitScript.not_atLineStart (u.toList ++ [' ']) '=' [' '] (by simp) (by decide) (by decide)
      (by simp)

theorem InExpression.prepend {lead : String} (h : InExpression lead) (before : String) :
    InExpression (before ++ lead) := by
  obtain ⟨u, rfl | rfl | rfl⟩ := h
  · exact ⟨before ++ u, .inl (by simp only [String.append_assoc])⟩
  · exact ⟨before ++ u, .inr (.inl (by simp only [String.append_assoc]))⟩
  · exact ⟨before ++ u, .inr (.inr (by simp only [String.append_assoc]))⟩

theorem inExpression_arguments (head : String) (texts : List String) :
    InExpression (head ++ "(" ++ String.join (texts.map (· ++ ", "))) := by
  obtain rfl | ⟨texts, text, rfl⟩ := List.eq_nil_or_concat texts
  · exact ⟨head, .inl (by simp)⟩
  · exact ⟨head ++ "(" ++ String.join (texts.map (· ++ ", ")) ++ text, .inr (.inl (by
      simp [String.append_assoc]))⟩

namespace Printer

theorem atLineStart_newline {unit : String} (hu : ∀ c ∈ unit.toList, c = ' ' ∨ c = '\t') (u : String)
    (depth : Nat) : AtLineStart (u ++ newline unit depth) := by
  refine ⟨u.toList, (indent unit depth).toList, by simp [newline], fun c hc => hu c (mem_indent hc)⟩

end Printer

open Printer in
theorem Part.declares {unit : String} {depth depth' : Nat} {p : Piece} {lead : String} {role : Role}
    {target value : Node} (h : Part unit depth p lead depth' (.node role (.assignment target value)))
    (hp : ∀ x ∈ p.occurrences, x.2.Fits x.1) (hr : role ≠ .parameter) :
    role = .statement ∧ (∃ u, lead = u ++ newline unit depth') ∨ role = .operand ∧ InExpression lead := by
  cases h with
  | statement ns n ms => exact .inl ⟨rfl, _, rfl⟩
  | value role name value => exact .inr ⟨rfl, _, .inr (.inr rfl)⟩
  | callee role f arguments =>
    have hfits : Node.Fits role (.invocation (.assignment target value) arguments) :=
      hp (role, _) (Node.mem_occurrences_self role _)
    cases hfits.1
  | argument role f ns n ms =>
    have hlead := inExpression_arguments ("(await " ++ Printer.callee f (node unit depth f))
      (ns.map (node unit depth))
    rw [List.map_map] at hlead
    exact .inr ⟨rfl, hlead⟩
  | parameter => exact absurd rfl hr

open Printer in
theorem Emits.declares {config : Config} {program : Program} {depth : Nat} {before : String} {role : Role}
    {target value : Node} (h : Emits config program depth before (.node role (.assignment target value)))
    (hf : program.HasSourceShape) (hr : role ≠ .parameter) :
    role = .statement ∧ (∃ u, before = u ++ newline config.indentUnit depth) ∨
      role = .operand ∧ InExpression before := by
  cases h with
  | @part depth' _ before' lead p _ h hp =>
    have hfits : ∀ x ∈ p.occurrences, x.2.Fits x.1 := fun x hx => hf x (h.occurrences_subset hx)
    obtain ⟨hrole, u, rfl⟩ | ⟨hrole, hin⟩ := hp.declares hfits hr
    · exact .inl ⟨hrole, before' ++ u, by rw [String.append_assoc]⟩
    · exact .inr ⟨hrole, hin.prepend before'⟩

theorem Role.declaration_eq {role : Role} (h : role ≠ .parameter) : role.declaration = "const " := by
  cases role with
  | parameter => exact absurd rfl h
  | _ => rfl

namespace Source
open Printer

/-- Every assignment of a compiled program is emitted. Unless it is a parameter, it declares its name,
and it does so after the indentation of a line if it is a statement, and otherwise inside of an
expression. -/
theorem declares_at_line_start_iff {config : Config} {source output : String} {program : Program}
    (hp : parse source = .ok program) (hc : compile config source = .ok output) :
    (∀ role target value, (role, .assignment target value) ∈ program.occurrences →
      ∃ depth before, Emits config program depth before (.node role (.assignment target value))) ∧
    ∀ depth before role target value,
      Emits config program depth before (.node role (.assignment target value)) → role ≠ .parameter →
        (∃ name after, target = .identifier name ∧ output = before ++ "const " ++ name ++ " = " ++ after) ∧
        (role = .statement ∧ (∃ u, before = u ++ newline config.indentUnit depth) ∨
          role = .operand ∧ InExpression before) ∧
        ((∀ c ∈ config.indentUnit.toList, c = ' ' ∨ c = '\t') →
          (AtLineStart before ↔ role = .statement)) := by
  obtain ⟨hf, hs, rfl⟩ := compiled hp hc
  refine ⟨fun role target value hmem => emits_of_mem_occurrences hf hs _ hmem,
    fun depth before role target value h hr => ?_⟩
  have hfits : Node.Fits role (.assignment target value) :=
    hf (role, _) (h.occurrences_subset (Node.mem_occurrences_self role _))
  obtain ⟨name, rfl⟩ := Node.exists_of_kind_identifier hfits.1
  have hsite : role = .statement ∧ (∃ u, before = u ++ newline config.indentUnit depth) ∨
      role = .operand ∧ InExpression before := h.declares hf hr
  refine ⟨?_, hsite, fun hu => ?_⟩
  · obtain ⟨after, hafter⟩ := h.text_eq
    refine ⟨name, node config.indentUnit depth value ++ after, rfl, ?_⟩
    rw [hafter, Piece.text_assignment, Role.declaration_eq hr]
    simp only [String.append_assoc]
  · obtain ⟨hrole, u, rfl⟩ | ⟨hrole, hin⟩ := hsite
    · exact iff_of_true (atLineStart_newline hu u depth) hrole
    · exact iff_of_false hin.not_atLineStart (by simp [hrole])

theorem declares_in_argument :
    parse "x = f(y = 1)" = .ok [.assignment (.identifier "x")
        (.invocation (.identifier "f") [.assignment (.identifier "y") (.integer 1)])] ∧
      compile {} "x = f(y = 1)" =
        .ok "(async function main () \x7b\n  const x = (await f(const y = 1))\n\x7d())" ∧
      ∃ before after, "(async function main () \x7b\n  const x = (await f(const y = 1))\n\x7d())" =
        before ++ "const " ++ "y" ++ " = " ++ after ∧ ¬ AtLineStart before := by
  have hp : parse "x = f(y = 1)" = .ok [.assignment (.identifier "x")
      (.invocation (.identifier "f") [.assignment (.identifier "y") (.integer 1)])] := by cbv
  have hc : compile {} "x = f(y = 1)" =
      .ok "(async function main () \x7b\n  const x = (await f(const y = 1))\n\x7d())" := by cbv
  obtain ⟨hemitted, hsites⟩ := declares_at_line_start_iff hp hc
  obtain ⟨depth, before, h⟩ := hemitted .operand (.identifier "y") (.integer 1)
    (by simp [Program.occurrences, Node.listOccurrences, Node.occurrences])
  obtain ⟨⟨name, after, hname, houtput⟩, -, hstart⟩ := hsites _ _ _ _ _ h (by decide)
  cases hname
  have hunit : ∀ c ∈ "  ".toList, c = ' ' ∨ c = '\t' := by simp
  exact ⟨hp, hc, before, after, houtput, fun hb => absurd ((hstart hunit).1 hb) (by decide)⟩

theorem declares_in_parameters : ¬ ∀ (config : Config) (source output : String) (program : Program),
    parse source = .ok program → compile config source = .ok output →
      ∀ depth before role target value,
        Emits config program depth before (.node role (.assignment target value)) → role ≠ .parameter →
          AtLineStart before := by
  intro hclaim
  have hp : parse "(a = b = 1) => \x7b\x7d" = .ok [.function
      [[.assignment (.identifier "a") (.assignment (.identifier "b") (.integer 1))]] []] := by cbv
  have hc : compile {} "(a = b = 1) => \x7b\x7d" =
      .ok "(async function main () \x7b\n  async (a = const b = 1) => \x7b\x7d\n\x7d())" := by cbv
  obtain ⟨hf, hs, -⟩ := compiled hp hc
  obtain ⟨depth, before, h⟩ := emits_of_mem_occurrences hf hs
    (.operand, .assignment (.identifier "b") (.integer 1))
    (by simp [Program.occurrences, Node.listOccurrences, Node.occurrences, Node.parameterOccurrences])
  have hstart := hclaim {} _ _ _ hp hc depth before _ _ _ h (by decide)
  obtain ⟨hrole, -⟩ | ⟨-, hin⟩ := h.declares hf (by decide)
  · cases hrole
  · exact hin.not_atLineStart hstart

end Source
end AwaitScript
