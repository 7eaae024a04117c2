import AwaitScript.Proofs.CompiledSource
import AwaitScript.Proofs.SourceRoles

/-! Where the parts of a program stand in the text that it compiles to. Every body and every node is
found by going from a piece of the program to one of its parts, and on the way the text in front of it
adds up. -/
namespace AwaitScript

namespace Node

theorem map_listOccurrences {ns : List Node}
    (h : ∀ n ∈ ns, ∀ role, (n.occurrences role).map Prod.snd = n.subnodes) (role : Role) :
    (listOccurrences role ns).map Prod.snd = listSubnodes ns := by
  induction ns with
  | nil => rfl
  | cons n ns ih =>
    obtain ⟨hn, hns⟩ := List.forall_mem_cons.1 h
    rw [listOccurrences, listSubnodes, List.map_append, hn, ih hns]

theorem map_occurrences (n : Node) (role : Role) : (n.occurrences role).map Prod.snd = n.subnodes := by
  induction n using Node.induction generalizing role with
  | assignment target value iht ihv => simp [occurrences, subnodes, iht, ihv]
  | destructuredAssignment names value ihv => simp [occurrences, subnodes, ihv]
  | invocation callee arguments ihc iha => simp [occurrences, subnodes, ihc, map_listOccurrences iha]
  | function parameters body ihp ihb =>
    have hparameters : (parameterOccurrences parameters).map Prod.snd = parameterSubnodes parameters := by
      induction parameters with
      | nil => rfl
      | cons es parameters hps =>
        obtain ⟨hes, ihp⟩ := List.forall_mem_cons.1 ihp
        rw [parameterOccurrences, parameterSubnodes, List.map_append, map_listOccurrences hes, hps ihp]
    simp [occurrences, subnodes, hparameters, map_listOccurrences ihb]
  | arg expressions ih => simp [occurrences, subnodes, map_listOccurrences ih]
  | object entries ih =>
    have hentries : (entryOccurrences entries).map Prod.snd = entrySubnodes entries := by
      induction entries with
      | nil => rfl
      | cons e entries hes =>
        obtain ⟨he, ih⟩ := List.forall_mem_cons.1 ih
        simp [entryOccurrences, entrySubnodes, he.1, he.2, hes ih]
    simp [occurrences, subnodes, hentries]
  | array items ih => simp [occurrences, subnodes, map_listOccurrences ih]
  | _ => rfl

end Node

namespace Role

def declaration : Role → String
  | parameter => ""
  | _ => "const "

end Role

/-- A part of a program that has a text of its own: the statements of a body, or a node in its role. -/
inductive Piece where
  | block (body : List Node)
  | node (role : Role) (n : Node)

namespace Piece

def occurrences : Piece → List (Role × Node)
  | block body => Node.listOccurrences .statement body
  | node role n => n.occurrences role

def text (unit : String) (depth : Nat) : Piece → String
  | block body => Printer.statements unit depth body
  | node .parameter n => Printer.expression unit depth n
  | node _ n => Printer.node unit depth n

end Piece

open Printer

/-- The second piece is a part of the first one, whose text up to it is `lead`. -/
inductive Part (unit : String) : Nat → Piece → String → Nat → Piece → Prop
  | statement (depth : Nat) (ns : List Node) (n : Node) (ms : List Node) :
      Part unit depth (.block (ns ++ n :: ms)) (statements unit depth ns ++ newline unit depth)
        depth (.node .statement n)
  | target (depth : Nat) (role : Role) (name : String) (value : Node) :
      Part unit depth (.node role (.assignment (.identifier name) value)) role.declaration
        depth (.node role.ofTarget (.identifier name))
  | value (depth : Nat) (role : Role) (name : String) (value : Node) :
      Part unit depth (.node role (.assignment (.identifier name) value))
        (role.declaration ++ name ++ " = ") depth (.node .operand value)
  | callee (depth : Nat) (role : Role) (f : Node) (arguments : List Node) :
      Part unit depth (.node role (.invocation f arguments))
        ("(await " ++ if f.kind = .function then "(" else "") depth (.node .callee f)
  | argument (depth : Nat) (role : Role) (f : Node) (ns : List Node) (n : Node) (ms : List Node) :
      Part unit depth (.node role (.invocation f (ns ++ n :: ms)))
        ("(await " ++ callee f (node unit depth f) ++ "(" ++
          String.join (ns.map fun m => node unit depth m ++ ", ")) depth (.node .operand n)
  | parameter (depth : Nat) (role : Role) (ps : List (List Node)) (n : Node) (qs : List (List Node))
      (body : List Node) :
      Part unit depth (.node role (.function (ps ++ [n] :: qs) body))
        ("async (" ++ String.join (ps.map fun es => expressions unit depth es ++ ", "))
        depth (.node .parameter n)
  | body (depth : Nat) (role : Role) (parameters : List (List Node)) (body : List Node) :
      Part unit depth (.node role (.function parameters body))
        ("async (" ++ ", ".intercalate (parameterList unit depth parameters) ++ ") => \x7b")
        (depth + 1) (.block body)

/-- The piece stands in the text of the program at a depth, after the text `before`. -/
inductive Emits (config : Config) (program : Program) : Nat → String → Piece → Prop
  | program : Emits config program 1 config.opening (.block program)
  | part {depth depth' : Nat} {before lead : String} {p q : Piece} (h : Emits config program depth before p)
      (hp : Part config.indentUnit depth p lead depth' q) : Emits config program depth' (before ++ lead) q

/-! ### Texts -/

namespace Printer

theorem statements_append (unit : String) (depth : Nat) (ns ms : List Node) :
    statements unit depth (ns ++ ms) = statements unit depth ns ++ statements unit depth ms := by
  induction ns with
  | nil => simp [statements]
  | cons n ns ih => simp [statements, ih, String.append_assoc]

theorem callee_parentheses (f : Node) (text : String) :
    callee f text = (if f.kind = .function then "(" else "") ++ text ++
      (if f.kind = .function then ")" else "") := by
  cases f <;> simp [callee, Node.kind]

theorem intercalate_split (xs : List String) (y : String) (ys : List String) :
    ∃ rest, ", ".intercalate (xs ++ y :: ys) = String.join (xs.map (· ++ ", ")) ++ y ++ rest := by
  induction xs with
  | nil =>
    cases ys with
    | nil => exact ⟨"", by simp⟩
    | cons z ys => exact ⟨", " ++ ", ".intercalate (z :: ys), by simp [String.append_assoc]⟩
  | cons x xs ih =>
    obtain ⟨rest, hrest⟩ := ih
    refine ⟨rest, ?_⟩
    rw [List.cons_append, String.intercalate_cons_of_ne_nil (by simp), hrest]
    simp [String.append_assoc]

end Printer

theorem Piece.text_node (unit : String) (depth : Nat) (role : Role) (n : Node) (h : n.kind ≠ .assignment) :
    (Piece.node role n).text unit depth = Printer.node unit depth n := by
  cases role with
  | parameter =>
    cases n with
    | assignment target value => exact absurd rfl h
    | _ => rfl
  | _ => rfl

theorem Piece.text_assignment (unit : String) (depth : Nat) (role : Role) (name : String) (value : Node) :
    (Piece.node role (.assignment (.identifier name) value)).text unit depth =
      role.declaration ++ name ++ " = " ++ Printer.node unit depth value := by
  cases role <;> simp [Piece.text, Printer.expression, Printer.node, Role.declaration]

theorem Part.text_eq {unit : String} {depth depth' : Nat} {p q : Piece} {lead : String}
    (h : Part unit depth p lead depth' q) :
    ∃ rest, p.text unit depth = lead ++ q.text unit depth' ++ rest := by
  cases h with
  | statement ns n ms =>
    refine ⟨statements unit depth ms, ?_⟩
    simp [Piece.text, statements_append, statements, String.append_assoc]
  | target role name value =>
    refine ⟨" = " ++ node unit depth value, ?_⟩
    rw [Piece.text_assignment,
      Piece.text_node unit depth role.ofTarget (.identifier name) (by simp [Node.kind])]
    simp [node, String.append_assoc]
  | value role name value => exact ⟨"", by rw [Piece.text_assignment]; simp [Piece.text]⟩
  | callee role f arguments =>
    refine ⟨(if f.kind = .function then ")" else "") ++
      ("(" ++ ", ".intercalate (nodes unit depth arguments) ++ "))"), ?_⟩
    rw [Piece.text_node unit depth role (.invocation f arguments) (by simp [Node.kind]), node,
      callee_parentheses]
    simp only [Piece.text, String.append_assoc]
  | argument role f ns n ms =>
    obtain ⟨rest, hrest⟩ := intercalate_split (ns.map (node unit depth)) (node unit depth n)
      (ms.map (node unit depth))
    refine ⟨rest ++ "))", ?_⟩
    rw [Piece.text_node unit depth role (.invocation f (ns ++ n :: ms)) (by simp [Node.kind]), node,
      nodes_eq, List.map_append, List.map_cons, hrest]
    simp [Piece.text, String.append_assoc, Function.comp_def]
  | parameter role ps n qs body =>
    obtain ⟨rest, hrest⟩ := intercalate_split (ps.map (expressions unit depth)) (expression unit depth n)
      (qs.map (expressions unit depth))
    have hexpression : expressions unit depth [n] = expression unit depth n := by simp [expressions_eq]
    refine ⟨rest ++ ") => \x7b" ++ (if body.isEmpty then "" else
      statements unit (depth + 1) body ++ newline unit depth) ++ "\x7d", ?_⟩
    rw [Piece.text_node unit depth role (.function (ps ++ [n] :: qs) body) (by simp [Node.kind]),
      node, parameterList_eq, List.map_append, List.map_cons, hexpression, hrest]
    simp [Piece.text, String.append_assoc, Function.comp_def]
  | body role parameters body =>
    rw [Piece.text_node unit depth role (.function parameters body) (by simp [Node.kind]), node,
      Piece.text]
    cases body with
    | nil => exact ⟨"\x7d", by simp [statements, String.append_assoc]⟩
    | cons n ns => exact ⟨newline unit depth ++ "\x7d", by simp [String.append_assoc]⟩

/-- Wherever a piece is emitted, the text of the program goes on with the text of the piece. -/
theorem Emits.text_eq {config : Config} {program : Program} {depth : Nat} {before : String} {p : Piece}
    (h : Emits config program depth before p) :
    ∃ after, Printer.program config program = before ++ p.text config.indentUnit depth ++ after := by
  induction h with
  | program => exact ⟨_, String.append_assoc⟩
  | part h hp ih =>
    obtain ⟨after, hafter⟩ := ih
    obtain ⟨rest, hrest⟩ := hp.text_eq
    exact ⟨rest ++ after, by rw [hafter, hrest]; simp only [String.append_assoc]⟩

/-! ### Parts of parts -/

theorem Part.occurrences_subset {unit : String} {depth depth' : Nat} {p q : Piece} {lead : String}
    (h : Part unit depth p lead depth' q) : q.occurrences ⊆ p.occurrences := by
  intro x hx
  cases h with
  | statement ns n ms =>
    rw [Piece.occurrences, Node.listOccurrences_eq]
    exact List.mem_flatMap.2 ⟨n, by simp, hx⟩
  | target role name value | value role name value | callee role f arguments =>
    simp only [Piece.occurrences, Node.occurrences, List.mem_cons, List.mem_append] at hx ⊢
    tauto
  | argument role f ns n ms =>
    simp only [Piece.occurrences, Node.occurrences, Node.listOccurrences_eq, List.mem_cons, List.mem_append]
    exact .inr (.inr (List.mem_flatMap.2 ⟨n, by simp, hx⟩))
  | parameter role ps n qs body =>
    simp only [Piece.occurrences, Node.occurrences, Node.parameterOccurrences_eq, List.mem_cons,
      List.mem_append]
    refine .inr (.inl (List.mem_flatMap.2 ⟨[n], by simp, ?_⟩))
    rwa [Node.listOccurrences_eq, List.flatMap_singleton]
  | body role parameters body =>
    simp only [Piece.occurrences, Node.occurrences, List.mem_cons, List.mem_append] at hx ⊢
    exact .inr (.inr hx)

section

variable {config : Config} {program : Program} {depth : Nat} {before : String}

theorem Emits.occurrences_subset {p : Piece} (h : Emits config program depth before p) :
    p.occurrences ⊆ program.occurrences := by
  induction h with
  | program => exact fun x hx => hx
  | part h hp ih => exact fun x hx => ih (hp.occurrences_subset hx)

theorem Emits.isLowerable (hf : program.HasSourceShape)
    (hs : ∀ n ∈ Node.listSubnodes program, n.kind.isSupported) {n : Node}
    (h : Emits config program depth before (.node .statement n)) : n.IsLowerable := by
  have hfits : n.AllFit .statement := fun p hp => hf p (h.occurrences_subset hp)
  apply (Node.allFit_statement_iff.1 hfits).isLowerable
  rw [← Node.map_occurrences n .statement, List.forall_mem_map]
  intro p hp
  apply hs
  rw [← Node.map_listOccurrences (fun n _ => n.map_occurrences) .statement]
  exact List.mem_map_of_mem (h.occurrences_subset hp)

theorem Emits.statement {body : List Node} (h : Emits config program depth before (.block body)) {n : Node}
    (hn : n ∈ body) : ∃ before, Emits config program depth before (.node .statement n) := by
  obtain ⟨ns, ms, rfl⟩ := List.append_of_mem hn
  exact ⟨_, h.part (.statement depth ns n ms)⟩

theorem Emits.nodes {role : Role} {n : Node} (h : Emits config program depth before (.node role n))
    (hf : n.AllFit role) (hs : ∀ m ∈ n.subnodes, m.kind.isSupported) :
    ∀ p ∈ n.occurrences role, ∃ depth before, Emits config program depth before (.node p.1 p.2) := by
  have hself {m : Node} (h : ∀ x ∈ m.subnodes, x.kind.isSupported) : m.kind.isSupported :=
    h m (Node.mem_subnodes_self m)
  induction n using Node.induction generalizing role depth before with
  | integer | boolean | identifier =>
    exact List.forall_mem_singleton.2 ⟨depth, before, h⟩
  | assignment target value iht ihv =>
    obtain ⟨hfits, -, hvalue⟩ := Node.allFit_assignment.1 hf
    obtain ⟨name, rfl⟩ := Node.exists_of_kind_identifier hfits.1
    rw [Node.subnodes, List.forall_mem_cons, List.forall_mem_append] at hs
    rw [Node.occurrences, List.forall_mem_cons, List.forall_mem_append]
    refine ⟨⟨depth, before, h⟩, ?_, ihv (h.part (.value depth role name value)) hvalue hs.2.2⟩
    exact List.forall_mem_singleton.2 ⟨_, _, h.part (.target depth role name value)⟩
  | invocation callee arguments ihc iha =>
    obtain ⟨-, hcallee, harguments⟩ := Node.allFit_invocation.1 hf
    rw [Node.subnodes, List.forall_mem_cons, List.forall_mem_append, Node.forall_listSubnodes] at hs
    rw [Node.occurrences, List.forall_mem_cons, List.forall_mem_append, Node.forall_listOccurrences]
    refine ⟨⟨depth, before, h⟩, ihc (h.part (.callee depth role callee arguments)) hcallee hs.2.1,
      fun n hn => ?_⟩
    have hpart := hs.2.2 n hn
    obtain ⟨ns, ms, rfl⟩ := List.append_of_mem hn
    exact iha n hn (h.part (.argument depth role callee ns n ms)) (harguments n hn) hpart
  | function parameters body ihp ihb =>
    obtain ⟨hfits, hparameters, hbody⟩ := Node.allFit_function.1 hf
    rw [Node.subnodes, List.forall_mem_cons, List.forall_mem_append, Node.forall_listSubnodes,
      Node.forall_parameterSubnodes] at hs
    rw [Node.occurrences, List.forall_mem_cons, List.forall_mem_append, Node.forall_listOccurrences,
      Node.forall_parameterOccurrences]
    refine ⟨⟨depth, before, h⟩, fun es hes n hn => ?_, fun n hn => ?_⟩
    · obtain ⟨e, rfl, -⟩ := Node.exists_of_fits_function hfits hes
      obtain rfl := List.mem_singleton.1 hn
      have hpart := hs.2.1 _ hes n hn
      have hfit := hparameters _ hes n hn
      obtain ⟨ps, qs, rfl⟩ := List.append_of_mem hes
      exact ihp _ hes n hn (h.part (.parameter depth role ps n qs body)) hfit hpart
    · obtain ⟨before, hn'⟩ := (h.part (.body depth role parameters body)).statement hn
      exact ihb n hn hn' (hbody n hn) (hs.2.2 n hn)
  | _ => cases hself hs

/-- Every node of a program is emitted in the role in which it stands there. -/
theorem emits_of_mem_occurrences (hf : program.HasSourceShape)
    (hs : ∀ n ∈ Node.listSubnodes program, n.kind.isSupported) :
    ∀ p ∈ program.occurrences, ∃ depth before, Emits config program depth before (.node p.1 p.2) := by
  rw [Program.HasSourceShape, Program.occurrences, Node.forall_listOccurrences] at hf
  rw [Node.forall_listSubnodes] at hs
  rw [Program.occurrences, Node.forall_listOccurrences]
  intro n hn
  obtain ⟨before, hemits⟩ := Emits.program.statement hn
  exact hemits.nodes (hf n hn) (hs n hn)

end

end AwaitScript
