import AwaitScript.Proofs.EmissionShape
import AwaitScript.Proofs.WireRoundTrip

/-! How lowering ends. A program is lowered unless one of its nodes has no form in the target, and then the
first such node, in the order of evaluation, is the one that is reported; splicing never fails. -/
namespace AwaitScript

def Kind.isSupported : Kind → Bool
  | integer | boolean | identifier | assignment | invocation | function => true
  | _ => false

namespace Node

def firstUnsupported? (nodes : List Node) : Option Node := nodes.find? fun n => !n.kind.isSupported

theorem firstUnsupported?_cons {n : Node} (h : n.kind.isSupported) (nodes : List Node) :
    firstUnsupported? (n :: nodes) = firstUnsupported? nodes := by
  simp [firstUnsupported?, h]

theorem firstUnsupported?_append (ns ms : List Node) :
    firstUnsupported? (ns ++ ms) = (firstUnsupported? ns).or (firstUnsupported? ms) :=
  List.find?_append

end Node

namespace Lowering
open Emission Node

/-- How a computation ends that stops at a node, if there is one, and otherwise has a result. -/
def Outcome {α : Type} (stop? : Option Node) (Q : α → Prop) (x : Lowered α) : Prop :=
  match stop? with
  | some n => x = .error (.unsupported n)
  | none => ∃ a, x = .ok a ∧ Q a

theorem Outcome.bind {α β : Type} {stop? stop'? : Option Node} {Q : α → Prop} {R : β → Prop}
    {x : Lowered α} {f : α → Lowered β} (hx : Outcome stop? Q x)
    (hf : ∀ a, Q a → Outcome stop'? R (f a)) : Outcome (stop?.or stop'?) R (x >>= f) := by
  cases stop? with
  | some n =>
    rw [show x = _ from hx]
    rfl
  | none =>
    obtain ⟨a, rfl, ha⟩ := hx
    exact hf a ha

theorem Outcome.next {α β : Type} {stop? : Option Node} {Q : α → Prop} {R : β → Prop} {x : Lowered α}
    {f : α → Lowered β} (hx : Outcome stop? Q x) (hf : ∀ a, Q a → Outcome none R (f a)) :
    Outcome stop? R (x >>= f) := by
  have h := hx.bind hf
  rwa [Option.or_none] at h

theorem Outcome.imp {α : Type} {stop? : Option Node} {Q R : α → Prop} {x : Lowered α}
    (h : Outcome stop? Q x) (hQ : ∀ a, Q a → R a) : Outcome stop? R x := by
  cases stop? with
  | some n => exact h
  | none =>
    obtain ⟨a, ha, hq⟩ := h
    exact ⟨a, ha, hQ a hq⟩

theorem Outcome.exists_ok_iff {α : Type} {stop? : Option Node} {Q : α → Prop} {x : Lowered α}
    (h : Outcome stop? Q x) : (∃ a, x = .ok a) ↔ stop? = none := by
  cases stop? with
  | some n =>
    rw [show x = _ from h]
    simp
  | none =>
    obtain ⟨a, ha, -⟩ := h
    simp [ha]

theorem Outcome.of_ok {α : Type} {stop? : Option Node} {Q : α → Prop} {x : Lowered α} {a : α}
    (h : Outcome stop? Q x) (ha : x = .ok a) : Q a := by
  subst ha
  cases stop? with
  | some n => cases h
  | none =>
    obtain ⟨b, hb, hq⟩ := h
    cases hb
    exact hq

theorem Outcome.ne_assertion {α : Type} {stop? : Option Node} {Q : α → Prop} {x : Lowered α}
    (h : Outcome stop? Q x) (message : String) :
    x.mapError Failure.ofLowerError ≠ .error (.assertion message) := by
  cases stop? with
  | some n =>
    rw [show x = _ from h]
    simp only [Except.mapError, Failure.ofLowerError]
    split <;> simp
  | none =>
    obtain ⟨a, rfl, -⟩ := h
    simp [Except.mapError]

def lowerExpression : Node → Lowered Emission
  | .assignment target value => do
    let target ← lower target
    let value ← lower value
    concat [target, .line " = ", value]
  | node => lower node

theorem lowerExpressions_cons (node : Node) (nodes : List Node) :
    lowerExpressions (node :: nodes) = (do
      let fragment ← lowerExpression node
      let fragments ← lowerExpressions nodes
      return fragment :: fragments) := by
  cases node with
  | assignment target value => simp only [lowerExpressions, lowerExpression, bind_assoc]
  | _ => rfl

section

variable {P : String → Prop} (hP : ∀ t, t ≠ "" → P t)
include hP

theorem concat_outcome {fragments : List Emission} (hf : ∀ e ∈ fragments, Fragment P e) :
    Outcome none (Fragment P) (concat fragments) := by
  obtain ⟨e, he, h⟩ := concat_fragment hP hf
  exact ⟨e, by rw [concat, he]; rfl, h⟩

theorem concat_cons_outcome {e : Emission} (he : Statement P e) {fragments : List Emission}
    (hf : ∀ e ∈ fragments, Fragment P e) : Outcome none (Statement P) (concat (e :: fragments)) := by
  obtain ⟨e', he', h⟩ := concat_statement hP he hf
  exact ⟨e', by rw [concat, he']; rfl, h⟩

theorem join_outcome {fragments : List Emission} (hf : ∀ e ∈ fragments, Fragment P e) :
    Outcome none (Fragment P) (join fragments) := by
  obtain ⟨e, he, h⟩ := join_fragment hP ", " hf
  exact ⟨e, by rw [join, he]; rfl, h⟩

theorem parenthesize_outcome {callee : Node} {e : Emission} (he : Fragment P e) :
    Outcome none (Fragment P) (parenthesize callee e) := by
  unfold parenthesize
  split
  · exact concat_outcome hP (by simp [he, fragment_line])
  · exact ⟨e, rfl, he⟩

theorem functionHead_outcome {parameters : List Emission} (hf : ∀ e ∈ parameters, Fragment P e) :
    Outcome none (Statement P) (functionHead parameters) :=
  (join_outcome hP hf).next fun list hl =>
    concat_cons_outcome hP (statement_line (hP _ (by decide))) (by simp [hl, fragment_line])

theorem functionOf_outcome {head : Emission} (hh : Statement P head) {body : List Emission}
    (hb : ∀ e ∈ body, Statement P e) : Outcome none (Statement P) (functionOf head body) := by
  unfold functionOf
  split
  · exact concat_cons_outcome hP hh (by simp [fragment_line])
  · next hne =>
    have hs := sequence_siblings (by simpa using hne) hb
    refine ⟨_, rfl, ?_⟩
    cases head with
    | line t => exact statement_open hh hs (hP _ (by decide))
    | group cs => exact statement_open hh hs (hP _ (by decide))

end

theorem Outcome.cons {Q : Emission → Prop} {stop? stop'? : Option Node} {x : Lowered Emission}
    {xs : Lowered (List Emission)} (hx : Outcome stop? Q x)
    (hxs : Outcome stop'? (fun es => ∀ e ∈ es, Q e) xs) :
    Outcome (stop?.or stop'?) (fun es => ∀ e ∈ es, Q e)
      (do let e ← x; let es ← xs; return e :: es) :=
  hx.bind fun e he => hxs.next fun es hes => ⟨e :: es, rfl, List.forall_mem_cons.2 ⟨he, hes⟩⟩

theorem lowerList_outcome {Q : Emission → Prop} {nodes : List Node}
    (h : ∀ n ∈ nodes, Outcome (firstUnsupported? n.subnodes) Q (lower n)) :
    Outcome (firstUnsupported? (listSubnodes nodes)) (fun es => ∀ e ∈ es, Q e) (lowerList nodes) := by
  induction nodes with
  | nil => exact ⟨[], rfl, by simp⟩
  | cons n nodes ih =>
    rw [listSubnodes, firstUnsupported?_append]
    exact (h n (by simp)).cons (ih fun n hn => h n (by simp [hn]))

theorem lowerExpressions_outcome {Q : Emission → Prop} {nodes : List Node}
    (h : ∀ n ∈ nodes, Outcome (firstUnsupported? n.subnodes) Q (lowerExpression n)) :
    Outcome (firstUnsupported? (listSubnodes nodes)) (fun es => ∀ e ∈ es, Q e)
      (lowerExpressions nodes) := by
  induction nodes with
  | nil => exact ⟨[], rfl, by simp⟩
  | cons n nodes ih =>
    rw [listSubnodes, firstUnsupported?_append, lowerExpressions_cons]
    exact (h n (by simp)).cons (ih fun n hn => h n (by simp [hn]))

theorem lowerParameters_outcome {P : String → Prop} (hP : ∀ t, t ≠ "" → P t)
    {parameters : List (List Node)}
    (h : ∀ es ∈ parameters, ∀ n ∈ es,
      Outcome (firstUnsupported? n.subnodes) (Fragment P) (lowerExpression n)) :
    Outcome (firstUnsupported? (parameterSubnodes parameters)) (fun es => ∀ e ∈ es, Fragment P e)
      (lowerParameters parameters) := by
  induction parameters with
  | nil => exact ⟨[], rfl, by simp⟩
  | cons ns parameters ih =>
    rw [parameterSubnodes, firstUnsupported?_append]
    have hns : Outcome (firstUnsupported? (listSubnodes ns)) (Fragment P)
        (lowerExpressions ns >>= concat) :=
      (lowerExpressions_outcome (h ns (by simp))).next fun es hes => concat_outcome hP hes
    have hcons := hns.cons (ih fun ns hm => h ns (by simp [hm]))
    rw [bind_assoc] at hcons
    exact hcons

theorem writeInt_ne_empty (value : Int) : String.ofList (Json.writeInt value) ≠ "" := by
  intro h
  have h := String.ofList_eq_empty_iff.1 h
  unfold Json.writeInt at h
  split at h
  · cases h
  · exact absurd h Nat.toDigits_ne_nil

/-- Every name in a node satisfies `P`. -/
def Named (P : String → Prop) (node : Node) : Prop :=
  ∀ m ∈ node.subnodes, ∀ name, m = .identifier name → P name

section

variable {P : String → Prop}

theorem named_assignment {target value : Node} :
    Named P (.assignment target value) ↔ Named P target ∧ Named P value := by
  simp only [Named, subnodes, List.forall_mem_cons, List.forall_mem_append, reduceCtorEq,
    false_implies, implies_true, true_and]

theorem named_invocation {callee : Node} {arguments : List Node} :
    Named P (.invocation callee arguments) ↔ Named P callee ∧ ∀ n ∈ arguments, Named P n := by
  simp only [Named, subnodes, List.forall_mem_cons, List.forall_mem_append, forall_listSubnodes,
    reduceCtorEq, false_implies, implies_true, true_and]

theorem named_function {parameters : List (List Node)} {body : List Node} :
    Named P (.function parameters body) ↔
      (∀ es ∈ parameters, ∀ n ∈ es, Named P n) ∧ ∀ n ∈ body, Named P n := by
  simp only [Named, subnodes, List.forall_mem_cons, List.forall_mem_append, forall_listSubnodes,
    forall_parameterSubnodes, reduceCtorEq, false_implies, implies_true, true_and]

/-- Lowering stops at the first node without a form, and otherwise gives a statement. -/
theorem lower_outcome (hP : ∀ t, t ≠ "" → P t) (node : Node) (hn : Named P node) :
    Outcome (firstUnsupported? node.subnodes) (Statement P) (lower node) ∧
      Outcome (firstUnsupported? node.subnodes) (Fragment P) (lowerExpression node) := by
  have hline {t : String} (ht : t ≠ "") : Statement P (line t) := statement_line (hP t ht)
  -- only an assignment is lowered in another way among the expressions of a parameter
  have hboth {x : Lowered Emission} {stop? : Option Node} (h : Outcome stop? (Statement P) x) :
      Outcome stop? (Statement P) x ∧ Outcome stop? (Fragment P) x :=
    ⟨h, h.imp fun _ h => h.toFragment⟩
  induction node using Node.induction with
  | integer value => exact hboth ⟨_, rfl, hline (writeInt_ne_empty value)⟩
  | boolean value => exact hboth ⟨_, rfl, hline (by cases value <;> decide)⟩
  | identifier name => exact hboth ⟨_, rfl, statement_line (hn _ (by simp [subnodes]) name rfl)⟩
  | assignment target value iht ihv =>
    obtain ⟨hnt, hnv⟩ := named_assignment.1 hn
    rw [subnodes, firstUnsupported?_cons rfl, firstUnsupported?_append]
    constructor
    · exact (iht hnt).1.bind fun t ht => (ihv hnv).1.next fun v hv =>
        concat_cons_outcome hP (hline (by decide)) (by simp [ht.toFragment, hv.toFragment, fragment_line])
    · exact (iht hnt).1.bind fun t ht => (ihv hnv).1.next fun v hv =>
        concat_outcome hP (by simp [ht.toFragment, hv.toFragment, fragment_line])
  | invocation callee arguments ihc iha =>
    obtain ⟨hnc, hna⟩ := named_invocation.1 hn
    have hargs := lowerList_outcome fun n h => (iha n h (hna n h)).1
    rw [subnodes, firstUnsupported?_cons rfl, firstUnsupported?_append]
    exact hboth <| (ihc hnc).1.bind fun c hc =>
      (parenthesize_outcome hP hc.toFragment).bind fun head hhead =>
      hargs.next fun es hes =>
      (join_outcome hP fun e he => (hes e he).toFragment).next fun list hlist =>
      concat_cons_outcome hP (hline (by decide)) (by simp [hhead, hlist, fragment_line])
  | function parameters body ihp ihb =>
    obtain ⟨hnp, hnb⟩ := named_function.1 hn
    have hparams := lowerParameters_outcome hP fun es hes n h => (ihp es hes n h (hnp es hes n h)).2
    have hbody := lowerList_outcome fun n h => (ihb n h (hnb n h)).1
    rw [subnodes, firstUnsupported?_cons rfl, firstUnsupported?_append]
    exact hboth <| hparams.bind fun ps hps =>
      (functionHead_outcome hP hps).bind fun head hhead =>
      hbody.next fun es hes =>
      functionOf_outcome hP hhead hes
  | _ => exact ⟨rfl, rfl⟩

end

theorem lowerList_statements {nodes : List Node} {es : List Emission}
    (hn : ∀ n ∈ nodes, Named (· ≠ "") n) (h : lowerList nodes = .ok es) :
    ∀ e ∈ es, Statement (· ≠ "") e :=
  (lowerList_outcome fun n hm => (lower_outcome (fun _ => id) n (hn n hm)).1).of_ok h

end Lowering

namespace Program
open Lowering

/-- The first node of a program that has no form in the target, in the order of evaluation: statements from
left to right, a target before its value, a callee before its arguments, parameters before the body. -/
def firstUnsupported? (program : Program) : Option Node :=
  Node.firstUnsupported? (Node.listSubnodes program)

theorem firstUnsupported?_eq_none {program : Program} :
    program.firstUnsupported? = none ↔ ∀ n ∈ Node.listSubnodes program, n.kind.isSupported := by
  simp [firstUnsupported?, Node.firstUnsupported?]

theorem lower_outcome (program : Program) :
    Outcome program.firstUnsupported? (fun _ => True) program.lower := by
  have h := lowerList_outcome fun n (_ : n ∈ program) =>
    (Lowering.lower_outcome (fun _ _ => trivial) n fun _ _ _ _ => trivial).1
  exact h.next fun es _ => ⟨_, rfl, trivial⟩

theorem compile_outcome (program : Program) (config : Config) :
    Outcome program.firstUnsupported? (fun _ => True) (program.compile config) :=
  (lower_outcome program).next fun _ _ => ⟨_, rfl, trivial⟩

theorem content?_isSome (n : Node) : n.content?.isSome ↔ ∀ m ∈ n.subnodes, m.isEncodable := by
  rw [Node.content?, Option.isSome_map, Node.toJson?_isSome]

/-- Lowering and compiling succeed exactly when every node has a form in the target, and otherwise fail
because of the first one that has none. The failure shows that node and its kind, unless a lone surrogate
in the node keeps it from being shown; the limit on nesting that a writer has is set aside. No fragment is
ever refused on the way. -/
theorem stops_at_first_unsupported (program : Program) (config : Config) :
    ((∃ e, program.lower = .ok e) ↔ ∀ n ∈ Node.listSubnodes program, n.kind.isSupported) ∧
    ((∃ text, program.compile config = .ok text) ↔
      ∀ n ∈ Node.listSubnodes program, n.kind.isSupported) ∧
    (∀ n, program.firstUnsupported? = some n →
      program.lower = .error (.unsupported n) ∧ program.compile config = .error (.unsupported n) ∧
      ((∀ m ∈ n.subnodes, m.isEncodable) → ∃ content, n.content? = some content ∧
        Failure.ofLowerError (.unsupported n) =
          .unsupported n.kind.name (unsupportedMessage n.kind.name content)) ∧
      ((∃ m ∈ n.subnodes, ¬ m.isEncodable) →
        Failure.ofLowerError (.unsupported n) = .unwritable)) ∧
    ∀ message,
      program.lower.mapError Failure.ofLowerError ≠ .error (.assertion message) ∧
      (program.compile config).mapError Failure.ofLowerError ≠ .error (.assertion message) := by
  have hl := lower_outcome program
  have hc := compile_outcome program config
  refine ⟨hl.exists_ok_iff.trans firstUnsupported?_eq_none,
    hc.exists_ok_iff.trans firstUnsupported?_eq_none, fun n hn => ?_, fun message =>
    ⟨hl.ne_assertion message, hc.ne_assertion message⟩⟩
  rw [hn] at hl hc
  refine ⟨hl, hc, fun hm => ?_, fun hm => ?_⟩
  · obtain ⟨content, hcontent⟩ := Option.isSome_iff_exists.1 ((content?_isSome n).2 hm)
    exact ⟨content, hcontent, by simp [Failure.ofLowerError, hcontent]⟩
  · have hnone : n.content? = none := by
      rw [← Option.not_isSome_iff_eq_none, content?_isSome]
      simpa using hm
    simp [Failure.ofLowerError, hnone]

end Program
end AwaitScript
