import AwaitScript.Proofs.SourceShape

/-! Every node of a program with the role in which it stands there. The programs of source texts are
described by what each role admits, and this description and the shape of their statements say the
same. -/
namespace AwaitScript

instance : DecidablePred IsName := fun name =>
  decidable_of_iff
    (name.toList.head?.any Token.isWordStart ∧ name.toList.tail.all Token.isWordPart) <| by
    unfold IsName Grammar.IsWord
    cases name.toList <;> simp

theorem IsVariable.ne_value {name : String} (h : IsVariable name) : ¬ (name = "true" ∨ name = "false") := by
  rintro (hn | hn)
  · exact h.2 true hn
  · exact h.2 false hn

inductive Role where
  | statement
  | operand
  | target
  | callee
  | parameter
  | key
  | repeatedKey
deriving DecidableEq, Repr

namespace Role

def takesWord : Role → Bool
  | parameter | key | repeatedKey => true
  | _ => false

def ofTarget : Role → Role
  | parameter => parameter
  | _ => target

def ofValue (entry : Node × Node) : Role :=
  if (Surface.entryName? entry).isSome then repeatedKey else operand

theorem ofTarget_ne (role : Role) : role.ofTarget ≠ statement := by
  cases role <;> decide

theorem takesWord_ofTarget {role : Role} (h : role.takesWord = false) :
    role.ofTarget.takesWord = false := by
  revert h
  cases role <;> decide

theorem ofValue_ne (entry : Node × Node) : ofValue entry ≠ statement := by
  unfold ofValue
  split <;> decide

end Role

namespace Node

mutual

/-- A node and all nodes in it with their roles. The nodes of a parameter stand right in their function,
and the names of a pattern right in their assignment. -/
def occurrences (role : Role) : Node → List (Role × Node)
  | .assignment target value =>
    (role, .assignment target value) ::
      (occurrences role.ofTarget target ++ occurrences .operand value)
  | .destructuredAssignment names value =>
    (role, .destructuredAssignment names value) :: occurrences .operand value
  | .invocation callee arguments =>
    (role, .invocation callee arguments) ::
      (occurrences .callee callee ++ listOccurrences .operand arguments)
  | .function parameters body =>
    (role, .function parameters body) ::
      (parameterOccurrences parameters ++ listOccurrences .statement body)
  | .arg expressions => (role, .arg expressions) :: listOccurrences .operand expressions
  | .object entries => (role, .object entries) :: entryOccurrences entries
  | .array items => (role, .array items) :: listOccurrences .operand items
  | node => [(role, node)]

def listOccurrences (role : Role) : List Node → List (Role × Node)
  | [] => []
  | node :: nodes => occurrences role node ++ listOccurrences role nodes

def parameterOccurrences : List (List Node) → List (Role × Node)
  | [] => []
  | expressions :: parameters =>
    listOccurrences .parameter expressions ++ parameterOccurrences parameters

def entryOccurrences : List (Node × Node) → List (Role × Node)
  | [] => []
  | (key, value) :: entries =>
    occurrences .key key ++ occurrences (.ofValue (key, value)) value ++ entryOccurrences entries

end

/-- What a source text can say of a node by itself and by its parts, in a role. -/
def IsAdmitted (role : Role) : Node → Prop
  | .integer value => 0 ≤ value
  | .float _ | .boolean _ | .string _ | .array _ => True
  | .identifier name => IsName name ∧ (name = "true" ∨ name = "false" → role.takesWord)
  | .assignment target _ => target.kind = .identifier
  | .destructuredAssignment names _ => ∀ name ∈ names, IsName name
  | .invocation callee _ => callee.isBinding = false
  | .function parameters _ =>
    ∀ es ∈ parameters, es.map kind = [.identifier] ∨ es.map kind = [.assignment]
  | .object entries => ∀ e ∈ entries, e.1.kind = .identifier
  | .imports name _ => IsName name ∧ role = .statement
  | .arg _ | .destructure _ => False

instance (role : Role) : DecidablePred (IsAdmitted role) := fun n => by
  cases n <;> unfold IsAdmitted <;> infer_instance

/-- A statement, moreover, does not lead with the word that starts an import. -/
def Fits (role : Role) (n : Node) : Prop :=
  n.IsAdmitted role ∧ (role = .statement → n.leading? ≠ some "import")

instance (role : Role) : DecidablePred (Fits role) := fun n =>
  inferInstanceAs (Decidable (n.IsAdmitted role ∧ (role = .statement → n.leading? ≠ some "import")))

theorem exists_of_kind_identifier {n : Node} (h : n.kind = .identifier) :
    ∃ name, n = .identifier name := by
  cases n <;> cases h
  exact ⟨_, rfl⟩

theorem exists_of_kind_imports {n : Node} (h : n.kind = .imports) :
    ∃ name path, n = .imports name path := by
  cases n <;> cases h
  exact ⟨_, _, rfl⟩

attribute [local simp] occurrences

theorem mem_occurrences_self (role : Role) (n : Node) : (role, n) ∈ n.occurrences role := by
  cases n <;> simp

theorem listOccurrences_eq (role : Role) (nodes : List Node) :
    listOccurrences role nodes = nodes.flatMap (occurrences role) := by
  induction nodes with
  | nil => rfl
  | cons n nodes ih => rw [listOccurrences, ih, List.flatMap_cons]

theorem parameterOccurrences_eq (parameters : List (List Node)) :
    parameterOccurrences parameters = parameters.flatMap (listOccurrences .parameter) := by
  induction parameters with
  | nil => rfl
  | cons es parameters ih => rw [parameterOccurrences, ih, List.flatMap_cons]

theorem entryOccurrences_eq (entries : List (Node × Node)) :
    entryOccurrences entries =
      entries.flatMap fun e => e.1.occurrences .key ++ e.2.occurrences (.ofValue e) := by
  induction entries with
  | nil => rfl
  | cons e entries ih => rw [entryOccurrences, ih, List.flatMap_cons]

section

variable {P : Role × Node → Prop}

theorem forall_listOccurrences {role : Role} {nodes : List Node} :
    (∀ p ∈ listOccurrences role nodes, P p) ↔ ∀ n ∈ nodes, ∀ p ∈ n.occurrences role, P p := by
  rw [listOccurrences_eq, List.forall_mem_flatMap]

theorem forall_parameterOccurrences {parameters : List (List Node)} :
    (∀ p ∈ parameterOccurrences parameters, P p) ↔
      ∀ es ∈ parameters, ∀ n ∈ es, ∀ p ∈ n.occurrences .parameter, P p := by
  rw [parameterOccurrences_eq, List.forall_mem_flatMap]
  exact forall₂_congr fun es hes => forall_listOccurrences

theorem forall_entryOccurrences {entries : List (Node × Node)} :
    (∀ p ∈ entryOccurrences entries, P p) ↔
      ∀ e ∈ entries, (∀ p ∈ e.1.occurrences .key, P p) ∧
        ∀ p ∈ e.2.occurrences (.ofValue e), P p := by
  rw [entryOccurrences_eq, List.forall_mem_flatMap]
  exact forall₂_congr fun e he => List.forall_mem_append

end

def AllFit (role : Role) (n : Node) : Prop := ∀ p ∈ n.occurrences role, p.2.Fits p.1

theorem AllFit.self {role : Role} {n : Node} (h : AllFit role n) : n.Fits role :=
  h (role, n) (mem_occurrences_self role n)

theorem AllFit.kind_ne {role : Role} {n : Node} (h : AllFit role n) (hr : role ≠ .statement) :
    n.kind ≠ .imports := by
  cases n with
  | imports name path => exact absurd h.self.1.2 hr
  | _ => exact nofun

section

variable {role : Role}

theorem allFit_assignment {target value : Node} : AllFit role (.assignment target value) ↔
    Fits role (.assignment target value) ∧ AllFit role.ofTarget target ∧ AllFit .operand value := by
  rw [AllFit, occurrences, List.forall_mem_cons, List.forall_mem_append]
  rfl

theorem allFit_destructuredAssignment {names : List String} {value : Node} :
    AllFit role (.destructuredAssignment names value) ↔
      Fits role (.destructuredAssignment names value) ∧ AllFit .operand value := by
  rw [AllFit, occurrences, List.forall_mem_cons]
  rfl

theorem allFit_invocation {callee : Node} {arguments : List Node} :
    AllFit role (.invocation callee arguments) ↔ Fits role (.invocation callee arguments) ∧
      AllFit .callee callee ∧ ∀ n ∈ arguments, AllFit .operand n := by
  rw [AllFit, occurrences, List.forall_mem_cons, List.forall_mem_append, forall_listOccurrences]
  rfl

theorem allFit_function {parameters : List (List Node)} {body : List Node} :
    AllFit role (.function parameters body) ↔ Fits role (.function parameters body) ∧
      (∀ es ∈ parameters, ∀ n ∈ es, AllFit .parameter n) ∧ ∀ n ∈ body, AllFit .statement n := by
  rw [AllFit, occurrences, List.forall_mem_cons, List.forall_mem_append, forall_parameterOccurrences,
    forall_listOccurrences]
  rfl

theorem allFit_object {entries : List (Node × Node)} : AllFit role (.object entries) ↔
    Fits role (.object entries) ∧ ∀ e ∈ entries, AllFit .key e.1 ∧ AllFit (.ofValue e) e.2 := by
  rw [AllFit, occurrences, List.forall_mem_cons, forall_entryOccurrences]
  rfl

theorem allFit_array {items : List Node} : AllFit role (.array items) ↔
    Fits role (.array items) ∧ ∀ n ∈ items, AllFit .operand n := by
  rw [AllFit, occurrences, List.forall_mem_cons, forall_listOccurrences]
  rfl

theorem allFit_leaf {n : Node} (h : n.occurrences role = [(role, n)]) :
    AllFit role n ↔ Fits role n := by
  rw [AllFit, h, List.forall_mem_singleton]

end

theorem allFit_word {role : Role} {name : String} (hr : role.takesWord) (hn : IsName name) :
    AllFit role (.identifier name) := by
  refine (allFit_leaf rfl).2 ⟨⟨hn, fun _ => hr⟩, ?_⟩
  rintro rfl
  cases hr

theorem allFit_variable {role : Role} {name : String} (hn : IsVariable name)
    (hs : role = .statement → (identifier name).leading? ≠ some "import") :
    AllFit role (.identifier name) :=
  (allFit_leaf rfl).2 ⟨⟨hn.1, fun h => absurd h hn.ne_value⟩, hs⟩

theorem allFit_imports {name : String} {path : Text} (hn : IsName name) :
    AllFit .statement (.imports name path) :=
  (allFit_leaf rfl).2 ⟨⟨hn, rfl⟩, nofun⟩

theorem IsExpression.allFit {n : Node} (h : IsExpression (fun _ => True) n) {role : Role}
    (hs : role = .statement → n.leading? ≠ some "import") : AllFit role n := by
  induction h generalizing role with
  | integer hk value => exact (allFit_leaf rfl).2 ⟨Int.natCast_nonneg value, hs⟩
  | float | boolean | string => exact (allFit_leaf rfl).2 ⟨trivial, hs⟩
  | identifier hk hn => exact allFit_variable hn hs
  | assignment hk hn hv ih =>
    have htarget := allFit_variable hn fun h => absurd h role.ofTarget_ne
    exact allFit_assignment.2 ⟨⟨rfl, hs⟩, htarget, ih nofun⟩
  | destructuredAssignment hk hn hv ih =>
    exact allFit_destructuredAssignment.2 ⟨⟨hn, hs⟩, ih nofun⟩
  | invocation hk hc hb ha ihc iha =>
    exact allFit_invocation.2 ⟨⟨hb, hs⟩, ihc nofun, fun n hn => iha n hn nofun⟩
  | function hk hp hv hi hl hb ihv ihb =>
    refine allFit_function.2 ⟨⟨fun es hes => ?_, hs⟩, fun es hes n hn => ?_, fun n hn => ?_⟩
    · obtain ⟨name, -, rfl | ⟨value, rfl⟩⟩ := hp es hes
      · exact .inl rfl
      · exact .inr rfl
    · obtain ⟨name, hname, rfl | ⟨value, rfl⟩⟩ := hp es hes
      · obtain rfl := List.mem_singleton.1 hn
        exact allFit_word rfl hname
      · obtain rfl := List.mem_singleton.1 hn
        exact allFit_assignment.2 ⟨⟨rfl, nofun⟩, allFit_word rfl hname, ihv name value hes nofun⟩
    · by_cases hkind : n.kind = .imports
      · obtain ⟨name, path, rfl⟩ := exists_of_kind_imports hkind
        exact allFit_imports (hi name path hn).2
      · exact ihb n hn hkind fun _ => hl n hn
  | object hk he hv ih =>
    refine allFit_object.2 ⟨⟨fun e hmem => ?_, hs⟩, fun e hmem => ?_⟩
    · obtain ⟨key, -, hkey⟩ := he e hmem
      rw [hkey]
      rfl
    · obtain ⟨k, value⟩ := e
      obtain ⟨key, hkey, rfl⟩ : ∃ key, IsName key ∧ k = .identifier key := he _ hmem
      refine ⟨allFit_word rfl hkey, ?_⟩
      by_cases hvalue : value = .identifier key
      · subst hvalue
        exact allFit_word (by simp [Role.ofValue, Surface.entryName?, Role.takesWord]) hkey
      · exact ih key value hmem hvalue fun h => absurd h (Role.ofValue_ne _)
  | array hk hi ih => exact allFit_array.2 ⟨⟨trivial, hs⟩, fun n hn => ih n hn nofun⟩

theorem exists_of_fits_function {role : Role} {parameters : List (List Node)} {body : List Node}
    (h : Fits role (.function parameters body)) {es : List Node} (hes : es ∈ parameters) :
    ∃ e, es = [e] ∧ (e.kind = .identifier ∨ e.kind = .assignment) := by
  have hkinds := h.1 es hes
  rw [List.map_eq_singleton_iff, List.map_eq_singleton_iff] at hkinds
  obtain ⟨e, rfl, hkind⟩ | ⟨e, rfl, hkind⟩ := hkinds
  · exact ⟨e, rfl, .inl hkind⟩
  · exact ⟨e, rfl, .inr hkind⟩

theorem isVariable_of_fits {role : Role} {name : String} (hr : role.takesWord = false)
    (h : Fits role (.identifier name)) : IsVariable name := by
  refine ⟨h.1.1, fun value hv => ?_⟩
  have hname : name = "true" ∨ name = "false" := by
    cases value
    · exact .inr hv
    · exact .inl hv
  rw [h.1.2 hname] at hr
  cases hr

theorem entryName?_eq_none {key : String} {value : Node} (h : value ≠ .identifier key) :
    Surface.entryName? (.identifier key, value) = none := by
  cases value with
  | identifier name => simpa [Surface.entryName?, eq_comm] using h
  | _ => rfl

theorem isEntry_of_allFit {e : Node × Node} (hk : e.1.kind = .identifier) (hkey : AllFit .key e.1)
    (hv : Role.ofValue e = .operand → IsExpression (fun _ => True) e.2) : IsEntry (fun _ => True) e := by
  obtain ⟨k, value⟩ := e
  obtain ⟨key, rfl⟩ := exists_of_kind_identifier hk
  refine ⟨key, hkey.self.1.1, rfl, ?_⟩
  by_cases hvalue : value = .identifier key
  · exact .inl hvalue
  · exact .inr (hv (by simp [Role.ofValue, entryName?_eq_none hvalue]))

theorem isStatement_of_allFit {n : Node} (h : AllFit .statement n)
    (he : n.kind ≠ .imports → IsExpression (fun _ => True) n) : IsStatement (fun _ => True) n := by
  by_cases hkind : n.kind = .imports
  · obtain ⟨name, path, rfl⟩ := exists_of_kind_imports hkind
    exact .inl ⟨name, path, rfl, trivial, h.self.1.1⟩
  · exact .inr ⟨he hkind, h.self.2 rfl⟩

/-- A node all of whose nodes fit is an expression where more than a word can stand, and it is a
parameter where one is expected. -/
theorem isExpression_of_allFit (n : Node) {role : Role} (h : AllFit role n) (hi : n.kind ≠ .imports) :
    (role.takesWord = false → IsExpression (fun _ => True) n) ∧
      (role = .parameter → n.kind = .identifier ∨ n.kind = .assignment →
        IsParameter (fun _ => True) [n]) := by
  induction n using Node.induction generalizing role with
  | integer value =>
    obtain ⟨m, rfl⟩ := Int.eq_ofNat_of_zero_le h.self.1
    exact ⟨fun _ => .integer trivial m, nofun⟩
  | float value => exact ⟨fun _ => .float trivial value, nofun⟩
  | boolean value => exact ⟨fun _ => .boolean trivial value, nofun⟩
  | string value => exact ⟨fun _ => .string trivial value, nofun⟩
  | identifier name =>
    exact ⟨fun hr => .identifier trivial (isVariable_of_fits hr h.self),
      fun _ _ => ⟨name, h.self.1.1, .inl rfl⟩⟩
  | assignment target value iht ihv =>
    obtain ⟨hself, htarget, hvalue⟩ := allFit_assignment.1 h
    obtain ⟨name, rfl⟩ := exists_of_kind_identifier hself.1
    have hv := (ihv hvalue (hvalue.kind_ne nofun)).1 rfl
    refine ⟨fun hr => .assignment trivial ?_ hv,
      fun _ _ => ⟨name, htarget.self.1.1, .inr ⟨value, hv, rfl⟩⟩⟩
    exact isVariable_of_fits (Role.takesWord_ofTarget hr) htarget.self
  | destructuredAssignment names value ihv =>
    obtain ⟨hself, hvalue⟩ := allFit_destructuredAssignment.1 h
    exact ⟨fun _ => .destructuredAssignment trivial hself.1 ((ihv hvalue (hvalue.kind_ne nofun)).1 rfl),
      nofun⟩
  | invocation callee arguments ihc iha =>
    obtain ⟨hself, hcallee, harguments⟩ := allFit_invocation.1 h
    refine ⟨fun _ => .invocation trivial ((ihc hcallee (hcallee.kind_ne nofun)).1 rfl) hself.1
      fun n hn => ?_, nofun⟩
    exact (iha n hn (harguments n hn) ((harguments n hn).kind_ne nofun)).1 rfl
  | function parameters body ihp ihb =>
    obtain ⟨hself, hparameters, hbody⟩ := allFit_function.1 h
    refine ⟨fun _ => Grammar.isExpression_function trivial (fun es hes => ?_) fun n hn => ?_, nofun⟩
    · obtain ⟨e, rfl, hkind⟩ := exists_of_fits_function hself hes
      have he := hparameters [e] hes e (List.mem_singleton_self e)
      exact (ihp [e] hes e (List.mem_singleton_self e) he (he.kind_ne nofun)).2 rfl hkind
    · exact isStatement_of_allFit (hbody n hn) fun hkind => (ihb n hn (hbody n hn) hkind).1 rfl
  | object entries ih =>
    obtain ⟨hself, hentries⟩ := allFit_object.1 h
    refine ⟨fun _ => Grammar.isExpression_object trivial fun e he => ?_, nofun⟩
    refine isEntry_of_allFit (hself.1 e he) (hentries e he).1 fun hr => ?_
    have hvalue := (hentries e he).2
    rw [hr] at hvalue
    exact ((ih e he).2 hvalue (hvalue.kind_ne nofun)).1 rfl
  | array items ih =>
    obtain ⟨-, hitems⟩ := allFit_array.1 h
    refine ⟨fun _ => .array trivial fun n hn => ?_, nofun⟩
    exact (ih n hn (hitems n hn) ((hitems n hn).kind_ne nofun)).1 rfl
  | imports name path => exact absurd rfl hi
  | arg | destructure => exact h.self.1.elim

theorem allFit_statement_iff {n : Node} : AllFit .statement n ↔ IsStatement (fun _ => True) n := by
  constructor
  · intro h
    exact isStatement_of_allFit h fun hkind => (isExpression_of_allFit n h hkind).1 rfl
  · rintro (⟨name, path, rfl, -, hn⟩ | ⟨he, hl⟩)
    · exact allFit_imports hn
    · exact he.allFit fun _ => hl

end Node

namespace Program

def occurrences (program : Program) : List (Role × Node) := Node.listOccurrences .statement program

def HasSourceShape (program : Program) : Prop := ∀ p ∈ program.occurrences, p.2.Fits p.1

instance : DecidablePred HasSourceShape := fun program =>
  inferInstanceAs (Decidable (∀ p ∈ program.occurrences, p.2.Fits p.1))

theorem hasSourceShape_iff {program : Program} :
    program.HasSourceShape ↔ ∀ n ∈ program, Node.IsStatement (fun _ => True) n := by
  rw [HasSourceShape, occurrences, Node.forall_listOccurrences]
  exact forall₂_congr fun n hn => Node.allFit_statement_iff

example : ¬ HasSourceShape [.assignment (.identifier "x") (.imports "m" [])] := by decide

end Program

namespace Source

/-- In whatever a source text says, every node fits the role in which it stands. -/
theorem hasSourceShape_of_parse {source : String} {program : Program} (h : parse source = .ok program) :
    program.HasSourceShape := by
  rw [Program.hasSourceShape_iff]
  exact isStatement_of_parse h

def keywordNames : Program :=
  [.destructuredAssignment ["false"] (.function
      [[.identifier "true"],
        [.assignment (.identifier "from") (.assignment (.identifier "x") (.integer 7))]]
      [.imports "true" [.scalar 'm']]),
    .invocation (.identifier "f")
      [.identifier "import", .object [(.identifier "true", .identifier "true")]]]

theorem hasSourceShape_keywordNames :
    parse ("\x7bfalse\x7d = (true, from = x = 7) => \x7b import true from \"m\" \x7d\n" ++
        "f(import, \x7btrue\x7d)") = .ok keywordNames ∧ keywordNames.HasSourceShape := by
  have h : parse ("\x7bfalse\x7d = (true, from = x = 7) => \x7b import true from \"m\" \x7d\n" ++
      "f(import, \x7btrue\x7d)") = .ok keywordNames := by cbv
  exact ⟨h, hasSourceShape_of_parse h⟩

end Source
end AwaitScript
