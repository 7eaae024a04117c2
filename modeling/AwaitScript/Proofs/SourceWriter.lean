import AwaitScript.Proofs.SourceRoles
import AwaitScript.Proofs.SpelledTokens
import AwaitScript.Proofs.WireRoundTrip

/-! A source text for every program of the shape of one. Each node is written as tokens, a comma after
every item of a list and patterns in braces; the parser reads these tokens back wherever an operand can
start, and from them the node. -/
namespace AwaitScript

def Text.literal (text : Text) : String :=
  String.ofList (Literal.write Literal.unicode (text.toString?.getD "").toList)

namespace Node

mutual

def tokens : Node → List Token
  | .integer value => [.int (String.ofList (Json.writeInt value))]
  | .boolean value => [.word (if value then "true" else "false")]
  | .string value => [.string value.literal]
  | .identifier name => [.word name]
  | .assignment target value => tokens target ++ .equals :: tokens value
  | .destructuredAssignment names value =>
    .openBrace :: (names.flatMap fun name => [.word name, .comma]) ++
      .closeBrace :: .equals :: tokens value
  | .invocation callee arguments =>
    tokens callee ++ .callParen :: (itemTokens arguments ++ [.closeParen])
  | .function parameters body =>
    .openParen :: parameterTokens parameters ++
      .closeParen :: .arrow :: .openBrace :: (statementTokens body ++ [.closeBrace])
  | .object entries => .openBrace :: (entryTokens entries ++ [.closeBrace])
  | .array items => .openBracket :: (itemTokens items ++ [.closeBracket])
  | .imports name path => [.word "import", .word name, .word "from", .string path.literal]
  | .float _ | .arg _ | .destructure _ => []

def itemTokens : List Node → List Token
  | [] => []
  | node :: nodes => tokens node ++ .comma :: itemTokens nodes

def statementTokens : List Node → List Token
  | [] => []
  | node :: nodes => tokens node ++ statementTokens nodes

def parameterTokens : List (List Node) → List Token
  | [] => []
  | expressions :: parameters => statementTokens expressions ++ .comma :: parameterTokens parameters

def entryTokens : List (Node × Node) → List Token
  | [] => []
  | (key, value) :: entries =>
    tokens key ++ (if (Surface.entryName? (key, value)).isSome then [] else .colon :: tokens value) ++
      .comma :: entryTokens entries

end

def isWritable : Node → Bool
  | .integer value => (Nat.toDigits 10 value.natAbs).length ≤ Surface.integerLimit
  | .float _ => false
  | node => node.isEncodable

def entryText (e : Node × Node) : List Token :=
  tokens e.1 ++ (if (Surface.entryName? e).isSome then [] else .colon :: tokens e.2) ++ [.comma]

theorem itemTokens_eq (nodes : List Node) :
    itemTokens nodes = nodes.flatMap fun n => n.tokens ++ [.comma] := by
  induction nodes with
  | nil => rfl
  | cons n nodes ih => simp [itemTokens, ih]

theorem statementTokens_eq (nodes : List Node) : statementTokens nodes = nodes.flatMap tokens := by
  induction nodes with
  | nil => rfl
  | cons n nodes ih => rw [statementTokens, ih, List.flatMap_cons]

theorem parameterTokens_eq (parameters : List (List Node)) :
    parameterTokens parameters = parameters.flatMap fun es => statementTokens es ++ [.comma] := by
  induction parameters with
  | nil => rfl
  | cons es parameters ih => simp [parameterTokens, ih]

theorem entryTokens_eq (entries : List (Node × Node)) :
    entryTokens entries = entries.flatMap entryText := by
  induction entries with
  | nil => rfl
  | cons e entries ih => simp [entryTokens, entryText, ih]

end Node

def Source.write (program : Program) : String :=
  String.ofList (Token.spell (Node.statementTokens program))

namespace Surface
open State

namespace State

theorem reads_append_of {s s' : State} {us : List Token} (h : s.reads us = some s') (ts : List Token) :
    s.reads (us ++ ts) = s'.reads ts := by
  rw [reads_append, h, Option.bind_some]

/-- The operand that has been read is `e`, once the assignments of which it is the last value are
completed as well. -/
def Ends (s : State) (e : Expression) (frames : List Frame) (statements : List Statement) : Prop :=
  ∃ e' frames', s = ⟨.operator e', frames', statements⟩ ∧ settle e' frames' = settle e frames

/-- A token that does not go on with the operand belongs to what is around the expression. -/
theorem Ends.step_eq {s : State} {e : Expression} {frames : List Frame} {statements : List Statement}
    (h : s.Ends e frames statements) {t : Token} (ht : t ∉ [.callParen, .equals, .arrow]) :
    s.step t = endExpression (settle e frames).1 (settle e frames).2 statements t := by
  obtain ⟨e', frames', rfl, hs⟩ := h
  rw [← hs]
  cases t with
  | callParen | equals | arrow => exact absurd (by decide) ht
  | _ => rfl

theorem reads_row {α β ι : Type} {state : ι → List β → State} {tokens : α → List Token}
    {elaborate : β → Except Defect α} {items : List α}
    (h : ∀ a ∈ items, ∃ b, elaborate b = .ok a ∧
      ∀ i bs, (state i bs).reads (tokens a) = some (state i (b :: bs))) :
    ∃ bs : List β, bs.mapM elaborate = .ok items ∧
      ∀ i acc, (state i acc).reads (items.flatMap tokens) = some (state i (bs.reverse ++ acc)) := by
  induction items with
  | nil => exact ⟨[], rfl, fun _ _ => rfl⟩
  | cons a items ih =>
    obtain ⟨ha, hitems⟩ := List.forall_mem_cons.1 h
    obtain ⟨b, hb, hread⟩ := ha
    obtain ⟨bs, hbs, hreads⟩ := ih hitems
    refine ⟨b :: bs, ?_, fun i acc => ?_⟩
    · rw [List.mapM_cons, hb, hbs]
      rfl
    · rw [List.flatMap_cons, reads_append_of (hread i acc), hreads]
      simp

end State

/-- The tokens of the node are read as the expression `e`, which stands for the node. What assigns
nothing leaves the state as its last token does. -/
structure Says (n : Node) (e : Expression) : Prop where
  elaborates : e.elaborate = .ok n
  spelled : ∀ t ∈ n.tokens, t.IsSpelled
  leads : n.tokens.head? = some (.word "import") → n.leading? = some "import"
  reads : ∀ frames statements, ∃ s, State.reads ⟨.operand, frames, statements⟩ n.tokens = some s ∧
    s.Ends e frames statements ∧ (n.isBinding = false → s = ⟨.operator e, frames, statements⟩)

def itemFrame : Option Expression → List Expression → Frame
  | none, items => .array items
  | some callee, items => .arguments callee items

theorem reads_items {nodes : List Node} (h : ∀ n ∈ nodes, ∃ e, Says n e) :
    ∃ es, elaborateItems es = .ok nodes ∧ ∀ callee? frames statements,
      State.reads ⟨.operand, itemFrame callee? [] :: frames, statements⟩ (Node.itemTokens nodes) =
        some ⟨.operand, itemFrame callee? es.reverse :: frames, statements⟩ := by
  let state (i : Option Expression × List Frame × List Statement) (items : List Expression) : State :=
    ⟨.operand, itemFrame i.1 items :: i.2.1, i.2.2⟩
  have hitem : ∀ n ∈ nodes, ∃ e : Expression, e.elaborate = .ok n ∧
      ∀ i es, (state i es).reads (n.tokens ++ [.comma]) = some (state i (e :: es)) := by
    intro n hn
    obtain ⟨e, he⟩ := h n hn
    refine ⟨e, he.elaborates, fun i es => ?_⟩
    obtain ⟨callee?, frames, statements⟩ := i
    obtain ⟨s, hs, hends, -⟩ := he.reads (itemFrame callee? es :: frames) statements
    rw [reads_append_of hs, State.reads, hends.step_eq (by decide)]
    cases callee? <;> rfl
  obtain ⟨es, hes, hreads⟩ := reads_row hitem
  refine ⟨es, by rw [Grammar.elaborateItems_eq]; exact hes, fun callee? frames statements => ?_⟩
  rw [Node.itemTokens_eq]
  simpa [state] using hreads (callee?, frames, statements) []

theorem spelled_items {nodes : List Node} (h : ∀ n ∈ nodes, ∃ e, Says n e) :
    ∀ t ∈ Node.itemTokens nodes, t.IsSpelled := by
  rw [Node.itemTokens_eq, List.forall_mem_flatMap]
  intro n hn
  obtain ⟨e, he⟩ := h n hn
  exact List.forall_mem_append.2 ⟨he.spelled, List.forall_mem_singleton.2 trivial⟩

def SaysEntry (e : Node × Node) : Prop :=
  ∃ key, IsName key ∧ e.1 = .identifier key ∧ (e.2 = .identifier key ∨ ∃ v, Says e.2 v)

theorem reads_entries {entries : List (Node × Node)} (h : ∀ e ∈ entries, SaysEntry e) :
    ∃ es, elaborateEntries es = .ok entries ∧ ∀ frames statements,
      State.reads ⟨.key [], frames, statements⟩ (Node.entryTokens entries) =
        some ⟨.key es.reverse, frames, statements⟩ := by
  let state (i : List Frame × List Statement) (es : List Entry) : State := ⟨.key es, i.1, i.2⟩
  have hentry : ∀ e ∈ entries, ∃ x : Entry, Grammar.Symbol.elaborate .entry x = .ok e ∧
      ∀ i es, (state i es).reads (Node.entryText e) = some (state i (x :: es)) := by
    rintro ⟨k, v⟩ he
    obtain ⟨key, -, rfl, hv⟩ :
        ∃ key, IsName key ∧ k = .identifier key ∧ (v = .identifier key ∨ ∃ e, Says v e) := h _ he
    by_cases hvalue : v = .identifier key
    · subst hvalue
      refine ⟨(key, none), rfl, fun i es => ?_⟩
      simp only [Node.entryText, entryName?, if_pos, Option.isSome_some, Node.tokens]
      rfl
    · obtain ⟨e, he⟩ := hv.resolve_left hvalue
      refine ⟨(key, some e), by simp [Grammar.Symbol.elaborate, he.elaborates, Except.map],
        fun i es => ?_⟩
      obtain ⟨frames, statements⟩ := i
      obtain ⟨s, hs, hends, -⟩ := he.reads (.entry es key :: frames) statements
      have htext : Node.entryText (.identifier key, v) =
          .word key :: .colon :: (v.tokens ++ [.comma]) := by
        simp [Node.entryText, Node.entryName?_eq_none hvalue, Node.tokens]
      rw [htext]
      change State.reads ⟨.operand, .entry es key :: frames, statements⟩ (v.tokens ++ [.comma]) = _
      rw [reads_append_of hs, State.reads, hends.step_eq (by decide)]
      rfl
  obtain ⟨es, hes, hreads⟩ := reads_row hentry
  refine ⟨es, by rw [Grammar.elaborateEntries_eq]; exact hes, fun frames statements => ?_⟩
  rw [Node.entryTokens_eq]
  simpa [state] using hreads (frames, statements) []

theorem spelled_entries {entries : List (Node × Node)} (h : ∀ e ∈ entries, SaysEntry e) :
    ∀ t ∈ Node.entryTokens entries, t.IsSpelled := by
  rw [Node.entryTokens_eq, List.forall_mem_flatMap]
  rintro ⟨k, v⟩ he
  obtain ⟨key, hkey, rfl, hv⟩ :
      ∃ key, IsName key ∧ k = .identifier key ∧ (v = .identifier key ∨ ∃ e, Says v e) := h _ he
  rw [Node.entryText, List.forall_mem_append, List.forall_mem_append]
  refine ⟨⟨List.forall_mem_singleton.2 hkey, ?_⟩, List.forall_mem_singleton.2 trivial⟩
  split
  · exact nofun
  · next hname =>
    have hvalue : v ≠ .identifier key := by
      rintro rfl
      simp [entryName?] at hname
    obtain ⟨e, he⟩ := hv.resolve_left hvalue
    exact List.forall_mem_cons.2 ⟨trivial, he.spelled⟩

def SaysParameter (es : List Node) : Prop :=
  ∃ name, IsName name ∧ (es = [.identifier name] ∨
    ∃ value v, es = [.assignment (.identifier name) value] ∧ Says value v)

theorem reads_parameters {parameters : List (List Node)} (h : ∀ es ∈ parameters, SaysParameter es) :
    ∃ ps, elaborateParameters ps = .ok parameters ∧ ∀ frames statements,
      State.reads ⟨.parameter [], frames, statements⟩ (Node.parameterTokens parameters) =
        some ⟨.parameter ps.reverse, frames, statements⟩ := by
  let state (i : List Frame × List Statement) (ps : List Parameter) : State := ⟨.parameter ps, i.1, i.2⟩
  have hparameter : ∀ es ∈ parameters, ∃ x : Parameter, Grammar.Symbol.elaborate .parameter x = .ok es ∧
      ∀ i ps, (state i ps).reads (Node.statementTokens es ++ [.comma]) = some (state i (x :: ps)) := by
    intro es hes
    obtain ⟨name, -, rfl | ⟨value, e, rfl, he⟩⟩ := h es hes
    · exact ⟨(name, none), rfl, fun i ps => rfl⟩
    · refine ⟨(name, some e), by simp [Grammar.Symbol.elaborate, he.elaborates, Except.map],
        fun i ps => ?_⟩
      obtain ⟨frames, statements⟩ := i
      obtain ⟨s, hs, hends, -⟩ := he.reads (.default ps name :: frames) statements
      have htext : Node.statementTokens [.assignment (.identifier name) value] ++ [.comma] =
          .word name :: .equals :: (value.tokens ++ [.comma]) := by
        simp [Node.statementTokens, Node.tokens]
      rw [htext]
      change State.reads ⟨.operand, .default ps name :: frames, statements⟩ (value.tokens ++ [.comma]) = _
      rw [reads_append_of hs, State.reads, hends.step_eq (by decide)]
      rfl
  obtain ⟨ps, hps, hreads⟩ := reads_row hparameter
  refine ⟨ps, by rw [Grammar.elaborateParameters_eq]; exact hps, fun frames statements => ?_⟩
  rw [Node.parameterTokens_eq]
  simpa [state] using hreads (frames, statements) []

theorem spelled_parameters {parameters : List (List Node)} (h : ∀ es ∈ parameters, SaysParameter es) :
    ∀ t ∈ Node.parameterTokens parameters, t.IsSpelled := by
  rw [Node.parameterTokens_eq, List.forall_mem_flatMap]
  intro es hes
  rw [List.forall_mem_append, List.forall_mem_singleton]
  refine ⟨?_, trivial⟩
  obtain ⟨name, hname, rfl | ⟨value, e, rfl, he⟩⟩ := h es hes
  · exact List.forall_mem_singleton.2 hname
  · rw [Node.statementTokens, Node.statementTokens, List.append_nil, Node.tokens, Node.tokens]
    exact List.forall_mem_cons.2 ⟨hname, List.forall_mem_cons.2 ⟨trivial, he.spelled⟩⟩

/-! ### Statements -/

structure SaysStatement (n : Node) (s : Statement) : Prop where
  elaborates : s.elaborate = .ok n
  spelled : ∀ t ∈ n.tokens, t.IsSpelled
  parses : parse n.tokens = .ok [s]

theorem step_start {t : Token} (h : t ≠ .word "import") :
    State.start.step t = State.step ⟨.operand, [], []⟩ t := by
  cases t with
  | word text =>
    have htext : text ≠ "import" := fun he => h (by rw [he])
    simp only [State.start, State.step, beginStatement, if_neg htext]
    rfl
  | _ => rfl

theorem Says.statement {n : Node} {e : Expression} (h : Says n e) (hn : n.leading? ≠ some "import") :
    SaysStatement n (.expression e) := by
  refine ⟨h.elaborates, h.spelled, run_eq_ok_iff.2 ?_⟩
  obtain ⟨s, hs, ⟨e', frames, rfl, hsettle⟩, -⟩ := h.reads [] []
  refine ⟨⟨.operator e', frames, []⟩, ?_, by simp [finish?, hsettle, settle]⟩
  cases htokens : n.tokens with
  | nil =>
    rw [htokens] at hs
    cases hs
  | cons t ts =>
    have ht : t ≠ .word "import" := fun ht => hn (h.leads (by simp [htokens, ht]))
    rw [htokens, State.reads] at hs
    rwa [State.reads, step_start ht]

theorem parse_statements {nodes : List Node} (h : ∀ n ∈ nodes, ∃ s, SaysStatement n s) :
    ∃ ss, parse (Node.statementTokens nodes) = .ok ss ∧ elaborateStatements ss = .ok nodes := by
  induction nodes with
  | nil => exact ⟨[], rfl, rfl⟩
  | cons n nodes ih =>
    obtain ⟨⟨s, hs⟩, hnodes⟩ := List.forall_mem_cons.1 h
    obtain ⟨ss, hparse, helaborate⟩ := ih hnodes
    refine ⟨s :: ss, parse_append hs.parses hparse, ?_⟩
    rw [elaborateStatements, hs.elaborates, helaborate]
    rfl

theorem spelled_statements {nodes : List Node} (h : ∀ n ∈ nodes, ∃ s, SaysStatement n s) :
    ∀ t ∈ Node.statementTokens nodes, t.IsSpelled := by
  rw [Node.statementTokens_eq, List.forall_mem_flatMap]
  intro n hn
  obtain ⟨s, hs⟩ := h n hn
  exact hs.spelled

theorem Place.step_closeBrace {p : Place} {s : State} {ss : List Statement} (h : s.finish? = some ss) :
    (p.state s).step .closeBrace = beginStatement p.frames (ss.reverse ++ p.statements) .closeBrace := by
  obtain ⟨mode, frames, statements⟩ := s
  cases mode with
  | statement =>
    cases frames with
    | nil =>
      obtain rfl : statements.reverse = ss := Option.some.inj h
      rw [List.reverse_reverse]
      rfl
    | cons frame frames => cases h
  | operator e =>
    obtain ⟨hs, hss⟩ := p.settle_inside e frames statements
    have hstep : (p.state ⟨.operator e, frames, statements⟩).step .closeBrace =
        endExpression (settle e frames).1 (p.inside (settle e frames).2 statements).1
          (p.inside (settle e frames).2 statements).2 .closeBrace := by
      simp only [state, State.step, afterOperand, hs, hss]
    rw [hstep]
    simp only [finish?] at h
    generalize settle e frames = settled at h
    obtain ⟨e', frames'⟩ := settled
    cases frames' with
    | nil =>
      cases h
      rw [List.reverse_reverse]
      simp only [inside]
      obtain hb | ⟨parameters, outer, rest, hb⟩ := p.base
      · rw [hb]
        rfl
      · rw [hb]
        rfl
    | cons frame frames' => cases h
  | _ => cases h

theorem reads_body {tokens : List Token} {ss : List Statement} (h : parse tokens = .ok ss)
    (parameters : List Parameter) (frames : List Frame) (outer : List Statement) :
    State.reads ⟨.statement, .body parameters outer :: frames, []⟩ (tokens ++ [.closeBrace]) =
      some ⟨.operator (.function parameters.reverse ss), frames, outer⟩ := by
  obtain ⟨s, hs, hfinish⟩ := run_eq_ok_iff.1 h
  let p : Place := ⟨.body parameters outer :: frames, [], .inr ⟨parameters, outer, frames, rfl⟩⟩
  have hreads : State.reads ⟨.statement, .body parameters outer :: frames, []⟩ tokens =
      some (p.state s) := p.reads_inside hs
  rw [reads_append_of hreads, State.reads, Place.step_closeBrace hfinish]
  simp [p, beginStatement, State.reads]

/-! ### Operands -/

theorem Says.of_reads {n : Node} {e : Expression} (he : e.elaborate = .ok n)
    (hs : ∀ t ∈ n.tokens, t.IsSpelled)
    (hl : n.tokens.head? = some (.word "import") → n.leading? = some "import")
    (hr : ∀ frames statements, State.reads ⟨.operand, frames, statements⟩ n.tokens =
      some ⟨.operator e, frames, statements⟩) : Says n e :=
  ⟨he, hs, hl, fun frames statements =>
    ⟨_, hr frames statements, ⟨e, frames, rfl, rfl⟩, fun _ => rfl⟩⟩

theorem says_integer {value : Nat} (h : (Node.integer value).isWritable) :
    Says (.integer value) (.int (String.ofList (Nat.toDigits 10 value))) := by
  have hlimit : (Nat.toDigits 10 value).length ≤ integerLimit := by simpa [Node.isWritable] using h
  have htokens : (Node.integer value).tokens = [.int (String.ofList (Nat.toDigits 10 value))] := by
    simp [Node.tokens, Json.writeInt, show ¬ (value : Int) < 0 by omega]
  have hnumber : DecimalDigit.number (Nat.toDigits 10 value) = value := by
    rw [DecimalDigit.number_eq Json.isDigit_toDigits, Json.number_toDigits]
  refine .of_reads ?_ ?_ ?_ fun frames statements => ?_
  · rw [Expression.elaborate, String.toList_ofList, readInteger, if_neg (by omega), hnumber]
  · rw [htokens, List.forall_mem_singleton, Token.IsSpelled, String.toList_ofList]
    refine ⟨Nat.toDigits_ne_nil, fun c hc => ?_⟩
    rw [DecimalDigit.isDigit, DecimalDigit.value?_of_isDigit (Json.isDigit_toDigits c hc)]
    rfl
  · simp [htokens]
  · rw [htokens]
    rfl

theorem says_boolean (value : Bool) : Says (.boolean value) (.boolean value) := by
  have hword : ∀ value : Bool, IsName (if value then "true" else "false") := by decide
  refine .of_reads rfl ?_ ?_ fun frames statements => ?_
  · rw [Node.tokens, List.forall_mem_singleton]
    exact hword value
  · cases value <;> decide
  · cases value <;> rfl

theorem readText_literal {text : Text} (h : text.isScalar) : readText text.literal = .ok text := by
  obtain ⟨s, hs⟩ := Option.isSome_iff_exists.1 ((Text.toString?_isSome text).2 h)
  have hread := Literal.readBody_write Program.escaping_unicode s.toList []
  rw [readText, Text.literal, hs, Option.getD_some, String.toList_ofList, Literal.write, List.cons_append,
    Literal.read, hread, Text.toString?_eq_some.1 hs]
  rfl

theorem isSpelled_literal (text : Text) : Token.IsSpelled (.string text.literal) := by
  rw [Token.IsSpelled, Text.literal, String.toList_ofList]
  exact Literal.isString_write _ _

theorem says_string {value : Text} (h : value.isScalar) : Says (.string value) (.string value.literal) := by
  refine .of_reads ?_ ?_ nofun fun _ _ => rfl
  · simp [Expression.elaborate, readText_literal h, Except.map]
  · rw [Node.tokens, List.forall_mem_singleton]
    exact isSpelled_literal value

theorem says_identifier {name : String} (h : IsVariable name) : Says (.identifier name) (.name name) := by
  refine .of_reads rfl ?_ ?_ fun frames statements => ?_
  · rw [Node.tokens, List.forall_mem_singleton]
    exact h.1
  · simp [Node.tokens, Node.leading?]
  · have ht : name ≠ "true" := fun hn => h.ne_value (.inl hn)
    have hf : name ≠ "false" := fun hn => h.ne_value (.inr hn)
    simp only [Node.tokens, State.reads, State.step, beginItem, beginOperand, if_neg ht, if_neg hf]

theorem isBinding_assign {target value n : Node} (h : assign target value = .ok n) : n.isBinding := by
  unfold assign at h
  split at h
  · cases h
    rfl
  · split at h
    · cases h
      rfl
    · cases h

theorem head?_of_append {us ts : List Token} {t u : Token} (h : (us ++ t :: ts).head? = some u)
    (ht : t ≠ u) : us.head? = some u := by
  cases us with
  | nil => exact absurd (Option.some.inj h) ht
  | cons v us => exact h

theorem Says.assignment {target value n : Node} {t e : Expression} (ht : Says target t) (he : Says value e)
    (hb : target.isBinding = false) (ha : assign target value = .ok n)
    (hn : n.tokens = target.tokens ++ .equals :: value.tokens)
    (hl : target.leading? = some "import" → n.leading? = some "import") : Says n (.assignment t e) := by
  refine ⟨?_, ?_, fun h => hl (ht.leads ?_), fun frames statements => ?_⟩
  · rw [Expression.elaborate, ht.elaborates, he.elaborates]
    exact ha
  · rw [hn, List.forall_mem_append, List.forall_mem_cons]
    exact ⟨ht.spelled, trivial, he.spelled⟩
  · rw [hn] at h
    exact head?_of_append h (by simp)
  · obtain ⟨s, hs, -, hexact⟩ := ht.reads frames statements
    obtain rfl := hexact hb
    obtain ⟨s', hs', ⟨e', frames', rfl, hsettle⟩, -⟩ := he.reads (.assignment t :: frames) statements
    refine ⟨_, ?_, ⟨e', frames', rfl, hsettle⟩, fun h => ?_⟩
    · rw [hn, reads_append_of hs]
      exact hs'
    · rw [isBinding_assign ha] at h
      cases h

theorem says_array {items : List Node} (h : ∀ n ∈ items, ∃ e, Says n e) : ∃ e, Says (.array items) e := by
  obtain ⟨es, helaborate, hreads⟩ := reads_items h
  refine ⟨.array es, .of_reads ?_ ?_ ?_ fun frames statements => ?_⟩
  · simp [Expression.elaborate, helaborate, Except.map]
  · rw [Node.tokens, List.forall_mem_cons, List.forall_mem_append, List.forall_mem_singleton]
    exact ⟨trivial, spelled_items h, trivial⟩
  · simp [Node.tokens]
  · rw [Node.tokens]
    change State.reads ⟨.operand, itemFrame none [] :: frames, statements⟩ _ = _
    rw [reads_append_of (hreads none frames statements)]
    simp [itemFrame, State.reads, State.step, beginItem]

theorem says_invocation {callee : Node} {arguments : List Node} (hc : ∃ e, Says callee e)
    (hb : callee.isBinding = false) (h : ∀ n ∈ arguments, ∃ e, Says n e) :
    ∃ e, Says (.invocation callee arguments) e := by
  obtain ⟨c, hc⟩ := hc
  obtain ⟨es, helaborate, hreads⟩ := reads_items h
  refine ⟨.call c es, .of_reads ?_ ?_ (fun hhead => hc.leads ?_) fun frames statements => ?_⟩
  · rw [Expression.elaborate, hc.elaborates, helaborate]
    rfl
  · rw [Node.tokens, List.forall_mem_append, List.forall_mem_cons, List.forall_mem_append,
      List.forall_mem_singleton]
    exact ⟨hc.spelled, trivial, spelled_items h, trivial⟩
  · rw [Node.tokens] at hhead
    exact head?_of_append hhead (by simp)
  · obtain ⟨s, hs, -, hexact⟩ := hc.reads frames statements
    obtain rfl := hexact hb
    rw [Node.tokens, reads_append_of hs]
    change State.reads ⟨.operand, itemFrame (some c) [] :: frames, statements⟩ _ = _
    rw [reads_append_of (hreads (some c) frames statements)]
    simp [itemFrame, State.reads, State.step, beginItem]

theorem says_object {entries : List (Node × Node)} (h : ∀ e ∈ entries, SaysEntry e) :
    ∃ e, Says (.object entries) e := by
  obtain ⟨es, helaborate, hreads⟩ := reads_entries h
  refine ⟨.object es, .of_reads ?_ ?_ ?_ fun frames statements => ?_⟩
  · simp [Expression.elaborate, helaborate, Except.map]
  · rw [Node.tokens, List.forall_mem_cons, List.forall_mem_append, List.forall_mem_singleton]
    exact ⟨trivial, spelled_entries h, trivial⟩
  · simp [Node.tokens]
  · rw [Node.tokens]
    change State.reads ⟨.key [], frames, statements⟩ _ = _
    rw [reads_append_of (hreads frames statements)]
    simp [State.reads, State.step]

/-- A pattern is written as the object whose entries repeat their keys. -/
theorem says_destructuredAssignment {names : List String} {value : Node}
    (hn : ∀ name ∈ names, IsName name) (h : ∃ e, Says value e) :
    ∃ e, Says (.destructuredAssignment names value) e := by
  let entry (name : String) : Node × Node := (.identifier name, .identifier name)
  have hentries : ∀ e ∈ names.map entry, SaysEntry e := by
    rw [List.forall_mem_map]
    exact fun name hname => ⟨name, hn name hname, rfl, .inl rfl⟩
  have hpattern : pattern? (.object (names.map entry)) = some names := by
    change (names.map entry).mapM entryName? = some names
    induction names with
    | nil => rfl
    | cons name names ih =>
      have hentry : entryName? (entry name) = some name := by simp [entry, entryName?]
      have hrest := ih (fun n h => hn n (by simp [h])) (fun e h => hentries e (List.mem_cons_of_mem _ h))
      rw [List.map_cons, List.mapM_cons, hentry, hrest]
      rfl
  have htokens : (Node.destructuredAssignment names value).tokens =
      (Node.object (names.map entry)).tokens ++ .equals :: value.tokens := by
    simp [Node.tokens, Node.entryTokens_eq, List.flatMap_map, Node.entryText, entry, entryName?]
  obtain ⟨t, ht⟩ := says_object hentries
  obtain ⟨e, he⟩ := h
  exact ⟨_, ht.assignment he rfl (by simp [assign, hpattern]) htokens (by simp [Node.leading?])⟩

theorem says_function {parameters : List (List Node)} {body : List Node}
    (hp : ∀ es ∈ parameters, SaysParameter es) (hb : ∀ n ∈ body, ∃ s, SaysStatement n s) :
    ∃ e, Says (.function parameters body) e := by
  obtain ⟨ps, hps, hreads⟩ := reads_parameters hp
  obtain ⟨ss, hparse, hss⟩ := parse_statements hb
  refine ⟨.function ps ss, .of_reads ?_ ?_ ?_ fun frames statements => ?_⟩
  · rw [Expression.elaborate, hps, hss]
    rfl
  · rw [Node.tokens]
    simp only [List.forall_mem_cons, List.forall_mem_append]
    exact ⟨⟨trivial, spelled_parameters hp⟩, trivial, trivial, trivial, spelled_statements hb, trivial,
      List.forall_mem_nil _⟩
  · simp [Node.tokens]
  · rw [Node.tokens, List.cons_append]
    change State.reads ⟨.parameter [], frames, statements⟩ _ = _
    rw [reads_append_of (hreads frames statements)]
    change State.reads ⟨.statement, .body ps.reverse statements :: frames, []⟩ _ = _
    rw [reads_body hparse, List.reverse_reverse]

theorem says_imports {name : String} {path : Text} (hn : IsName name) (hp : path.isScalar) :
    SaysStatement (.imports name path) (.imports name path.literal) := by
  refine ⟨?_, ?_, rfl⟩
  · simp [Statement.elaborate, readText_literal hp, Except.map]
  · have himport : IsName "import" := by decide
    have hfrom : IsName "from" := by decide
    simp only [Node.tokens, List.forall_mem_cons]
    exact ⟨himport, hn, hfrom, isSpelled_literal path, List.forall_mem_nil _⟩

/-- Every expression of a source text that can be written is read back from its tokens. -/
theorem exists_says {n : Node} (h : n.IsExpression fun _ => True) (hw : ∀ m ∈ n.subnodes, m.isWritable) :
    ∃ e, Says n e := by
  have hself {m : Node} (h : ∀ x ∈ m.subnodes, x.isWritable) : m.isWritable :=
    h m (Node.mem_subnodes_self m)
  induction h with
  | integer hk value => exact ⟨_, says_integer (hself hw)⟩
  | float hk value => cases hself hw
  | boolean hk value => exact ⟨_, says_boolean value⟩
  | string hk value => exact ⟨_, says_string (hself hw)⟩
  | identifier hk hn => exact ⟨_, says_identifier hn⟩
  | assignment hk hn hv ih =>
    obtain ⟨e, he⟩ := ih fun m hm => hw m (by simp [Node.subnodes, hm])
    exact ⟨_, (says_identifier hn).assignment he rfl rfl rfl id⟩
  | destructuredAssignment hk hn hv ih =>
    exact says_destructuredAssignment hn (ih fun m hm => hw m (by simp [Node.subnodes, hm]))
  | invocation hk hc hb ha ihc iha =>
    rw [Node.subnodes, List.forall_mem_cons, List.forall_mem_append, Node.forall_listSubnodes] at hw
    exact says_invocation (ihc hw.2.1) hb fun n hn => iha n hn (hw.2.2 n hn)
  | function hk hp hv hi hl hb ihv ihb =>
    rw [Node.subnodes, List.forall_mem_cons, List.forall_mem_append, Node.forall_listSubnodes,
      Node.forall_parameterSubnodes] at hw
    obtain ⟨-, hparameters, hbody⟩ := hw
    refine says_function (fun es hes => ?_) fun n hn => ?_
    · obtain ⟨name, hname, rfl | ⟨value, rfl⟩⟩ := hp es hes
      · exact ⟨name, hname, .inl rfl⟩
      · have hvalue : ∀ m ∈ value.subnodes, m.isWritable := fun m hm =>
          hparameters _ hes _ (List.mem_singleton_self _) m (by simp [Node.subnodes, hm])
        obtain ⟨e, he⟩ := ihv name value hes hvalue
        exact ⟨name, hname, .inr ⟨value, e, rfl, he⟩⟩
    · by_cases hkind : n.kind = .imports
      · obtain ⟨name, path, rfl⟩ := Node.exists_of_kind_imports hkind
        exact ⟨_, says_imports (hi name path hn).2 (hself (hbody _ hn))⟩
      · obtain ⟨e, he⟩ := ihb n hn hkind (hbody n hn)
        exact ⟨_, he.statement (hl n hn)⟩
  | object hk he hv ih =>
    rw [Node.subnodes, List.forall_mem_cons, Node.forall_entrySubnodes] at hw
    refine says_object fun e hmem => ?_
    obtain ⟨k, v⟩ := e
    obtain ⟨key, hkey, rfl⟩ : ∃ key, IsName key ∧ k = .identifier key := he _ hmem
    refine ⟨key, hkey, rfl, ?_⟩
    by_cases hvalue : v = .identifier key
    · exact .inl hvalue
    · exact .inr (ih key v hmem hvalue (hw.2 _ hmem).2)
  | array hk hi ih =>
    rw [Node.subnodes, List.forall_mem_cons, Node.forall_listSubnodes] at hw
    exact says_array fun n hn => ih n hn (hw.2 n hn)

theorem exists_saysStatement {n : Node} (h : n.IsStatement fun _ => True)
    (hw : ∀ m ∈ n.subnodes, m.isWritable) : ∃ s, SaysStatement n s := by
  obtain ⟨name, path, rfl, -, hname⟩ | ⟨he, hl⟩ := h
  · exact ⟨_, says_imports hname (hw _ (Node.mem_subnodes_self _))⟩
  · obtain ⟨e, hsays⟩ := exists_says he hw
    exact ⟨_, hsays.statement hl⟩

end Surface

namespace Source

theorem surface_spell {tokens : List Token} {ss : List Surface.Statement}
    (h : Surface.parse tokens = .ok ss) (ht : ∀ t ∈ tokens, t.IsSpelled) :
    surface (Token.spell tokens) = .ok ss := by
  obtain ⟨s, hs, -⟩ := Surface.run_eq_ok_iff.1 h
  have htokens : (Lexeme.scan (Token.spell tokens)).map Lexeme.token = tokens :=
    Lexeme.tokens_spell hs ht nofun 0
  apply mapError_eq_ok_iff.2
  rw [htokens]
  exact h

/-- A program of the shape of a source text, without floats and lone surrogates and with integers of at
most 4300 digits, is what its text says. -/
theorem parse_write {program : Program} (hs : program.HasSourceShape)
    (hw : ∀ n ∈ Node.listSubnodes program, n.isWritable) : parse (write program) = .ok program := by
  rw [Node.forall_listSubnodes] at hw
  have hsays : ∀ n ∈ program, ∃ s, Surface.SaysStatement n s := fun n hn =>
    Surface.exists_saysStatement (Program.hasSourceShape_iff.1 hs n hn) (hw n hn)
  obtain ⟨ss, hparse, helaborate⟩ := Surface.parse_statements hsays
  refine parse_eq_ok_iff.2 ⟨ss, ?_, helaborate⟩
  rw [write, String.toList_ofList]
  exact surface_spell hparse (Surface.spelled_statements hsays)

def layeredProgram : Program :=
  [.identifier "a",
    .function [[.identifier "true"],
        [.assignment (.identifier "from") (.assignment (.identifier "x") (.integer 70))]]
      [.imports "false" [.scalar '"', .scalar '\n', .scalar '\\', .scalar '😀']],
    .destructuredAssignment ["import", "b"]
      (.invocation (.invocation (.function [] []) [.identifier "import"])
        [.array [], .object [(.identifier "true", .identifier "true"), (.identifier "k", .boolean false)]])]

theorem parse_write_layered :
    layeredProgram.HasSourceShape ∧ (∀ n ∈ Node.listSubnodes layeredProgram, n.isWritable) ∧
      parse (write layeredProgram) = .ok layeredProgram := by
  have hs : layeredProgram.HasSourceShape := by decide
  have hw : ∀ n ∈ Node.listSubnodes layeredProgram, n.isWritable := List.all_eq_true.1 (by decide)
  exact ⟨hs, hw, parse_write hs hw⟩

end Source
end AwaitScript
