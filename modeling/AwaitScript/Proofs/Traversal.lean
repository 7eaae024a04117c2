import AwaitScript.Ast.Node
import Mathlib

/-! Induction over syntax trees, and the nodes of a tree in the order in which they are evaluated.
Computations that fail or have a result, taken apart at their result. -/
namespace AwaitScript

section
variable {ε ε' α β : Type}

theorem mapError_eq_ok_iff {f : ε → ε'} {x : Except ε α} {a : α} : x.mapError f = .ok a ↔ x = .ok a := by
  cases x <;> simp [Except.mapError]

theorem mapError_eq_error_iff {f : ε → ε'} {x : Except ε α} {e : ε'} :
    x.mapError f = .error e ↔ ∃ e', x = .error e' ∧ f e' = e := by
  cases x <;> simp [Except.mapError]

theorem bind_eq_ok_iff {x : Except ε α} {f : α → Except ε β} {b : β} :
    x >>= f = .ok b ↔ ∃ a, x = .ok a ∧ f a = .ok b := by
  cases x <;> simp [bind, Except.bind]

theorem map_eq_ok_iff {x : Except ε α} {f : α → β} {b : β} :
    x.map f = .ok b ↔ ∃ a, x = .ok a ∧ f a = b := by
  cases x <;> simp [Except.map]

end

namespace Node

@[elab_as_elim]
theorem induction {motive : Node → Prop}
    (integer : ∀ value, motive (.integer value))
    (float : ∀ value, motive (.float value))
    (boolean : ∀ value, motive (.boolean value))
    (string : ∀ value, motive (.string value))
    (identifier : ∀ name, motive (.identifier name))
    (assignment : ∀ target value, motive target → motive value → motive (.assignment target value))
    (destructuredAssignment : ∀ names value, motive value → motive (.destructuredAssignment names value))
    (destructure : ∀ names, motive (.destructure names))
    (invocation : ∀ callee arguments, motive callee → (∀ n ∈ arguments, motive n) →
      motive (.invocation callee arguments))
    (function : ∀ parameters body, (∀ es ∈ parameters, ∀ n ∈ es, motive n) → (∀ n ∈ body, motive n) →
      motive (.function parameters body))
    (arg : ∀ expressions, (∀ n ∈ expressions, motive n) → motive (.arg expressions))
    (object : ∀ entries, (∀ e ∈ entries, motive e.1 ∧ motive e.2) → motive (.object entries))
    (array : ∀ items, (∀ n ∈ items, motive n) → motive (.array items))
    (imports : ∀ name path, motive (.imports name path)) (node : Node) : motive node := by
  induction h : sizeOf node using Nat.strongRecOn generalizing node with
  | ind size ih =>
    subst h
    have hlist {ns : List Node} (h : sizeOf ns < sizeOf node) : ∀ n ∈ ns, motive n := fun n hn =>
      ih _ ((List.sizeOf_lt_of_mem hn).trans h) n rfl
    cases node with
    | integer value => exact integer value
    | float value => exact float value
    | boolean value => exact boolean value
    | string value => exact string value
    | identifier name => exact identifier name
    | assignment target value =>
      exact assignment target value (ih _ (by simp; omega) target rfl) (ih _ (by simp) value rfl)
    | destructuredAssignment names value =>
      exact destructuredAssignment names value (ih _ (by simp) value rfl)
    | destructure names => exact destructure names
    | invocation callee arguments =>
      exact invocation callee arguments (ih _ (by simp; omega) callee rfl) (hlist (by simp))
    | function parameters body =>
      refine function parameters body (fun es hes => hlist ?_) (hlist (by simp))
      have := List.sizeOf_lt_of_mem hes
      simp only [Node.function.sizeOf_spec]
      omega
    | arg expressions => exact arg expressions (hlist (by simp))
    | object entries =>
      refine object entries fun e he => ?_
      have := List.sizeOf_lt_of_mem he
      obtain ⟨k, v⟩ := e
      simp only [Prod.mk.sizeOf_spec] at this
      exact ⟨ih _ (by simp only [Node.object.sizeOf_spec]; omega) k rfl,
        ih _ (by simp only [Node.object.sizeOf_spec]; omega) v rfl⟩
    | array items => exact array items (hlist (by simp))
    | imports name path => exact imports name path

mutual

/-- A node and all nodes in it, each before those that it holds. -/
def subnodes : Node → List Node
  | .assignment target value => .assignment target value :: (subnodes target ++ subnodes value)
  | .destructuredAssignment names value => .destructuredAssignment names value :: subnodes value
  | .invocation callee arguments =>
    .invocation callee arguments :: (subnodes callee ++ listSubnodes arguments)
  | .function parameters body =>
    .function parameters body :: (parameterSubnodes parameters ++ listSubnodes body)
  | .arg expressions => .arg expressions :: listSubnodes expressions
  | .object entries => .object entries :: entrySubnodes entries
  | .array items => .array items :: listSubnodes items
  | node => [node]

def listSubnodes : List Node → List Node
  | [] => []
  | node :: nodes => subnodes node ++ listSubnodes nodes

def parameterSubnodes : List (List Node) → List Node
  | [] => []
  | expressions :: parameters => listSubnodes expressions ++ parameterSubnodes parameters

def entrySubnodes : List (Node × Node) → List Node
  | [] => []
  | (key, value) :: entries => subnodes key ++ subnodes value ++ entrySubnodes entries

end

variable {P : Node → Prop}

theorem forall_listSubnodes {nodes : List Node} :
    (∀ m ∈ listSubnodes nodes, P m) ↔ ∀ n ∈ nodes, ∀ m ∈ subnodes n, P m := by
  induction nodes with
  | nil => simp [listSubnodes]
  | cons n nodes ih => rw [listSubnodes, List.forall_mem_append, ih, List.forall_mem_cons]

theorem forall_parameterSubnodes {parameters : List (List Node)} :
    (∀ m ∈ parameterSubnodes parameters, P m) ↔
      ∀ es ∈ parameters, ∀ n ∈ es, ∀ m ∈ subnodes n, P m := by
  induction parameters with
  | nil => simp [parameterSubnodes]
  | cons es parameters ih =>
    rw [parameterSubnodes, List.forall_mem_append, ih, forall_listSubnodes, List.forall_mem_cons]

theorem forall_entrySubnodes {entries : List (Node × Node)} :
    (∀ m ∈ entrySubnodes entries, P m) ↔
      ∀ e ∈ entries, (∀ m ∈ subnodes e.1, P m) ∧ ∀ m ∈ subnodes e.2, P m := by
  induction entries with
  | nil => simp [entrySubnodes]
  | cons e entries ih =>
    rw [entrySubnodes, List.forall_mem_append, List.forall_mem_append, ih, List.forall_mem_cons]

theorem forall_subnodes {n : Node} (h : ∀ m ∈ subnodes n, P m) :
    ∀ m ∈ subnodes n, ∀ x ∈ subnodes m, P x := by
  have hself := h
  induction n using Node.induction with
  | assignment target value ht hv =>
    rw [subnodes, List.forall_mem_cons, List.forall_mem_append] at h ⊢
    exact ⟨hself, ht h.2.1 h.2.1, hv h.2.2 h.2.2⟩
  | destructuredAssignment names value hv =>
    rw [subnodes, List.forall_mem_cons] at h ⊢
    exact ⟨hself, hv h.2 h.2⟩
  | invocation callee arguments hc ha =>
    rw [subnodes, List.forall_mem_cons, List.forall_mem_append, forall_listSubnodes] at h ⊢
    exact ⟨hself, hc h.2.1 h.2.1, fun n hn => ha n hn (h.2.2 n hn) (h.2.2 n hn)⟩
  | function parameters body hp hb =>
    rw [subnodes, List.forall_mem_cons, List.forall_mem_append, forall_listSubnodes,
      forall_parameterSubnodes] at h ⊢
    exact ⟨hself, fun es hes n hn => hp es hes n hn (h.2.1 es hes n hn) (h.2.1 es hes n hn),
      fun n hn => hb n hn (h.2.2 n hn) (h.2.2 n hn)⟩
  | arg nodes hn | array nodes hn =>
    rw [subnodes, List.forall_mem_cons, forall_listSubnodes] at h ⊢
    exact ⟨hself, fun n hmem => hn n hmem (h.2 n hmem) (h.2 n hmem)⟩
  | object entries he =>
    rw [subnodes, List.forall_mem_cons, forall_entrySubnodes] at h ⊢
    exact ⟨hself, fun e hmem => ⟨(he e hmem).1 (h.2 e hmem).1 (h.2 e hmem).1,
      (he e hmem).2 (h.2 e hmem).2 (h.2 e hmem).2⟩⟩
  | integer | float | boolean | string | identifier | destructure | imports =>
    intro m hm
    obtain rfl := List.mem_singleton.1 hm
    exact h

theorem forall_subnodes_list {nodes : List Node} (h : ∀ m ∈ listSubnodes nodes, P m) :
    ∀ m ∈ listSubnodes nodes, ∀ x ∈ subnodes m, P x := by
  rw [forall_listSubnodes] at h ⊢
  exact fun n hn => forall_subnodes (h n hn)

end Node
end AwaitScript
