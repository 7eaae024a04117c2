import AwaitScript.Compile.Pipeline
import AwaitScript.Proofs.JsonText
import AwaitScript.Proofs.Traversal

/-! Syntax trees survive the way through JSON: what is written for a tree is loaded as the same tree, for
every kind of node in every place and in every layout. -/
namespace AwaitScript

/-! ### Trees that JSON can hold -/

namespace Node

/-- The strings of a node itself, as opposed to those of the nodes in it, have an encoding. -/
def isEncodable : Node → Bool
  | .string value => value.isScalar
  | .imports _ path => path.isScalar
  | _ => true

/-- The number of a node itself is finite, and has at most 4300 digits if it is an integer. -/
def isExact : Node → Bool
  | .integer value => Json.digits value ≤ Json.numberLimit
  | .float (.finite _ _) => true
  | .float _ => false
  | _ => true

def isTaken [Json.Edition] : Node → Bool
  | .integer value => Json.fits (value < 0) (Json.digits value)
  | _ => true

/-- A negative integer with as many digits as a number can have. -/
def isLongNegative : Node → Bool
  | .integer value => value < 0 && Json.digits value = Json.numberLimit
  | _ => false

def isInfinite : Node → Bool
  | .float (.finite _ _) => false
  | .float _ => true
  | _ => false

theorem isInfinite_of_isExact {node : Node} (h : node.isExact) : node.isInfinite = false := by
  cases node with
  | float value => cases value <;> simp_all [isExact, isInfinite]
  | _ => rfl

/-- Editions of the reader differ only on negative integers at the limit. -/
theorem isTaken_eq [Json.Edition] {node : Node} (h : node.isExact) :
    node.isTaken = !(Json.Edition.countsSign && node.isLongNegative) := by
  cases node with
  | integer value =>
    have hd : Json.digits value ≤ Json.numberLimit := of_decide_eq_true h
    rw [isTaken, Bool.eq_iff_iff, Json.fits_iff]
    cases Json.Edition.countsSign <;> simp [isLongNegative, hd]
    omega
  | _ => simp [isTaken, isLongNegative]

mutual

/-- How deep the containers nest in the JSON of a node. -/
def nesting : Node → Nat
  | .assignment target value => max (nesting target) (nesting value) + 1
  | .destructuredAssignment names value => max (nameNesting names + 1) (nesting value) + 1
  | .destructure names => nameNesting names + 1
  | .invocation callee arguments => max (nesting callee) (listNesting arguments) + 1
  | .function parameters body => max (parameterNesting parameters) (listNesting body) + 1
  | .arg expressions => listNesting expressions + 1
  | .object entries => entryNesting entries + 1
  | .array items => listNesting items + 1
  | .imports _ _ => 2
  | _ => 1

def listNesting : List Node → Nat
  | [] => 0
  | node :: nodes => max (nesting node + 1) (listNesting nodes)

def parameterNesting : List (List Node) → Nat
  | [] => 0
  | expressions :: parameters => max (listNesting expressions + 2) (parameterNesting parameters)

def entryNesting : List (Node × Node) → Nat
  | [] => 0
  | (key, value) :: entries => max (max (nesting key) (nesting value) + 2) (entryNesting entries)

def nameNesting : List String → Nat
  | [] => 0
  | _ :: _ => 2

end

/-! ### What is written -/

theorem listToJson?_eq_some {nodes : List Node} {js : List Json} :
    listToJson? nodes = some js ↔ List.Forall₂ (fun n j => toJson? n = some j) nodes js := by
  induction nodes generalizing js with
  | nil => simp [listToJson?, eq_comm]
  | cons n nodes ih =>
    simp only [listToJson?, List.forall₂_cons_left_iff, ← ih, Option.bind_eq_bind,
      Option.bind_eq_some_iff, Option.pure_def, Option.some.injEq]
    grind

theorem parametersToJson?_eq_some {parameters : List (List Node)} {js : List Json} :
    parametersToJson? parameters = some js ↔
      List.Forall₂ (fun es j => ∃ items, listToJson? es = some items ∧
        Wire.record .arg [("expressions", .arr items)] = j) parameters js := by
  induction parameters generalizing js with
  | nil => simp [parametersToJson?, eq_comm]
  | cons es parameters ih =>
    simp only [parametersToJson?, List.forall₂_cons_left_iff, ← ih, Option.bind_eq_bind,
      Option.bind_eq_some_iff, Option.pure_def, Option.some.injEq]
    grind

theorem entriesToJson?_eq_some {entries : List (Node × Node)} {js : List Json} :
    entriesToJson? entries = some js ↔
      List.Forall₂ (fun e j => ∃ key value, toJson? e.1 = some key ∧ toJson? e.2 = some value ∧
        .obj [("key", key), ("value", value)] = j) entries js := by
  induction entries generalizing js with
  | nil => simp [entriesToJson?, eq_comm]
  | cons e entries ih =>
    obtain ⟨k, v⟩ := e
    simp only [entriesToJson?, List.forall₂_cons_left_iff, ← ih, Option.bind_eq_bind,
      Option.bind_eq_some_iff, Option.pure_def, Option.some.injEq]
    grind

theorem eq_some_single {α β : Type} {a? : Option α} {f : α → β} {b : β}
    (h : (a?.bind fun a => some (f a)) = some b) : ∃ a, a? = some a ∧ f a = b := by
  simpa [Option.bind_eq_some_iff] using h

theorem eq_some_both {α β γ : Type} {a? : Option α} {b? : Option β} {f : α → β → γ} {c : γ}
    (h : (a?.bind fun a => b?.bind fun b => some (f a b)) = some c) :
    ∃ a, a? = some a ∧ ∃ b, b? = some b ∧ f a b = c := by
  simpa [Option.bind_eq_some_iff] using h

theorem isSome_single {α β : Type} (a? : Option α) (f : α → β) :
    (a?.bind fun a => some (f a)).isSome ↔ a?.isSome := by
  cases a? <;> simp

theorem isSome_both {α β γ : Type} (a? : Option α) (b? : Option β) (f : α → β → γ) :
    (a?.bind fun a => b?.bind fun b => some (f a b)).isSome ↔ a?.isSome ∧ b?.isSome := by
  cases a? <;> cases b? <;> simp

theorem listToJson?_isSome (nodes : List Node) :
    (listToJson? nodes).isSome ↔ ∀ n ∈ nodes, (toJson? n).isSome := by
  induction nodes with
  | nil => simp [listToJson?]
  | cons n nodes ih => exact (isSome_both ..).trans (by rw [ih, List.forall_mem_cons])

theorem parametersToJson?_isSome (parameters : List (List Node)) :
    (parametersToJson? parameters).isSome ↔ ∀ es ∈ parameters, ∀ n ∈ es, (toJson? n).isSome := by
  induction parameters with
  | nil => simp [parametersToJson?]
  | cons es parameters ih =>
    exact (isSome_both ..).trans (by rw [ih, listToJson?_isSome, List.forall_mem_cons])

theorem entriesToJson?_isSome (entries : List (Node × Node)) :
    (entriesToJson? entries).isSome ↔
      ∀ e ∈ entries, (toJson? e.1).isSome ∧ (toJson? e.2).isSome := by
  induction entries with
  | nil => simp [entriesToJson?]
  | cons e entries ih =>
    rw [List.forall_mem_cons, ← ih]
    cases hk : toJson? e.1 with
    | none => simp [entriesToJson?, hk]
    | some k => simp [entriesToJson?, hk, isSome_both]

theorem string?_isSome (t : Text) : (Wire.string? t).isSome ↔ t.isScalar := by
  rw [Wire.string?, Option.isSome_map, Text.toString?_isSome]

theorem toJson?_isSome (node : Node) : node.toJson?.isSome ↔ ∀ m ∈ node.subnodes, m.isEncodable := by
  induction node using Node.induction with
  | integer value => simp [toJson?, subnodes, isEncodable]
  | float value => simp [toJson?, subnodes, isEncodable]
  | boolean value => simp [toJson?, subnodes, isEncodable]
  | string value => simp [toJson?, subnodes, isEncodable, string?_isSome]
  | identifier name => simp [toJson?, subnodes, isEncodable]
  | assignment target value iht ihv =>
    rw [subnodes, List.forall_mem_cons, List.forall_mem_append, ← iht, ← ihv]
    exact (isSome_both ..).trans (and_iff_right rfl).symm
  | destructuredAssignment names value ih =>
    rw [subnodes, List.forall_mem_cons, ← ih]
    exact (isSome_single ..).trans (and_iff_right rfl).symm
  | destructure names => simp [toJson?, subnodes, isEncodable]
  | invocation callee arguments ihc iha =>
    rw [subnodes, List.forall_mem_cons, List.forall_mem_append, forall_listSubnodes, ← ihc,
      ← forall₂_congr iha, ← listToJson?_isSome]
    exact (isSome_both ..).trans (and_iff_right rfl).symm
  | function parameters body ihp ihb =>
    rw [subnodes, List.forall_mem_cons, List.forall_mem_append, forall_listSubnodes,
      forall_parameterSubnodes, ← forall₂_congr fun es hes => forall₂_congr (ihp es hes),
      ← forall₂_congr ihb, ← listToJson?_isSome, ← parametersToJson?_isSome]
    exact (isSome_both ..).trans (and_iff_right rfl).symm
  | arg expressions ih =>
    rw [subnodes, List.forall_mem_cons, forall_listSubnodes, ← forall₂_congr ih, ← listToJson?_isSome]
    exact (isSome_single ..).trans (and_iff_right rfl).symm
  | object entries ih =>
    rw [subnodes, List.forall_mem_cons, forall_entrySubnodes,
      ← forall₂_congr fun e he => and_congr (ih e he).1 (ih e he).2, ← entriesToJson?_isSome]
    exact (isSome_single ..).trans (and_iff_right rfl).symm
  | array items ih =>
    rw [subnodes, List.forall_mem_cons, forall_listSubnodes, ← forall₂_congr ih, ← listToJson?_isSome]
    exact (isSome_single ..).trans (and_iff_right rfl).symm
  | imports name path =>
    simp only [subnodes, List.forall_mem_singleton, isEncodable, ← string?_isSome]
    exact isSome_single ..

/-! ### The limits of the reader -/

theorem readable_obj {d : Nat} (hd : 0 < d) {members : List (String × Json)}
    (h : ∀ m ∈ members, Json.Readable (d - 1) m.2) : Json.Readable d (.obj members) := by
  obtain ⟨e, rfl⟩ := Nat.exists_eq_add_of_lt hd
  rw [Nat.zero_add] at h ⊢
  cases members with
  | nil => exact .emptyObj _
  | cons m members => exact .obj h

theorem readable_record {d : Nat} (hd : 0 < d) {kind : Kind} {fields : List (String × Json)}
    (h : ∀ f ∈ fields, Json.Readable (d - 1) f.2) : Json.Readable d (Wire.record kind fields) :=
  readable_obj hd (List.forall_mem_cons.2 ⟨.str _ kind.name, h⟩)

theorem readable_arr {α : Type} {R : α → Json → Prop} {as : List α} {js : List Json} {d : Nat}
    (h : List.Forall₂ R as js) (hR : ∀ a ∈ as, ∀ j, R a j → 0 < d ∧ Json.Readable (d - 1) j) :
    Json.Readable d (.arr js) := by
  have hall : ∀ j ∈ js, 0 < d ∧ Json.Readable (d - 1) j := by
    induction h with
    | nil => simp
    | cons ha _ ih =>
      refine List.forall_mem_cons.2 ⟨hR _ (by simp) _ ha, ih fun a hm => hR a (by simp [hm])⟩
  cases js with
  | nil => exact .emptyArr d
  | cons j js =>
    obtain ⟨e, rfl⟩ := Nat.exists_eq_add_of_lt (hall j (by simp)).1
    rw [Nat.zero_add] at hall ⊢
    exact .arr fun j hj => (hall j hj).2

theorem le_of_mem_max {α : Type} {f : α → Nat} {g : List α → Nat}
    (hg : ∀ x xs, g (x :: xs) = max (f x) (g xs)) {x : α} {xs : List α} (h : x ∈ xs) : f x ≤ g xs := by
  induction xs with
  | nil => cases h
  | cons y xs ih =>
    rw [hg]
    obtain rfl | h := List.mem_cons.1 h
    · exact le_max_left ..
    · exact (ih h).trans (le_max_right ..)

theorem le_listNesting {n : Node} {nodes : List Node} (h : n ∈ nodes) :
    nesting n + 1 ≤ listNesting nodes :=
  le_of_mem_max (f := fun n => nesting n + 1) (g := listNesting) (fun _ _ => rfl) h

theorem le_parameterNesting {es : List Node} {parameters : List (List Node)} (h : es ∈ parameters) :
    listNesting es + 2 ≤ parameterNesting parameters :=
  le_of_mem_max (f := fun es => listNesting es + 2) (g := parameterNesting) (fun _ _ => rfl) h

theorem le_entryNesting {e : Node × Node} {entries : List (Node × Node)} (h : e ∈ entries) :
    max (nesting e.1) (nesting e.2) + 2 ≤ entryNesting entries :=
  le_of_mem_max (f := fun e => max (nesting e.1) (nesting e.2) + 2) (g := entryNesting)
    (fun _ _ => rfl) h

theorem readable_identifier (name : String) {d : Nat} (hd : 0 < d) :
    Json.Readable d (Wire.identifier name) :=
  readable_record hd (by simpa using .str _ name)

theorem readable_destructure (names : List String) {d : Nat} (hd : nameNesting names < d) :
    Json.Readable d (Wire.destructure names) := by
  refine readable_record (by omega) ?_
  have hn : List.Forall₂ (fun name j => Wire.identifier name = j) names (names.map Wire.identifier) := by
    simp [List.forall₂_same]
  have ha : Json.Readable (d - 1) (.arr (names.map Wire.identifier)) := by
    refine readable_arr hn fun name hm j hj => ?_
    cases names with
    | nil => cases hm
    | cons m names =>
      rw [nameNesting] at hd
      exact ⟨by omega, hj ▸ readable_identifier name (by omega)⟩
  simpa using ha

end Node

/-! ### What is loaded -/

namespace Load

theorem kind_ofName? (kind : Kind) : Kind.ofName? kind.name = some kind := by
  cases kind <;> decide

theorem node_record [Json.Edition] {kind : Kind} {fields : List (String × Json)}
    (h : Json.lookup? "type" fields = none) (path : Path) :
    node path (Wire.record kind fields) =
      Load.fields (path ++ [.key kind.name]) kind (("type", .str kind.name) :: fields) := by
  have hk : kindOf path (("type", .str kind.name) :: fields) = .ok kind := by
    simp [kindOf, Json.lookup?, h, kind_ofName?]
  rw [Wire.record, node, hk]

theorem checkKind_record {kind : Kind} {fields : List (String × Json)}
    (h : Json.lookup? "type" fields = none) (path : Path) :
    checkKind kind path (("type", .str kind.name) :: fields) = .ok () := by
  simp [checkKind, Json.lookup?, h]

theorem find?_eq {field : Field} {members : List (String × Json)} {v : Json}
    (h : Json.lookup? field.wire members = some v) :
    field.find? members = some ⟨(field.wire, v), Json.sizeOf_lookup? h⟩ := by
  unfold Field.find?
  split
  · next w hw =>
    rw [h] at hw
    cases hw
    rfl
  · next hw =>
    rw [h] at hw
    cases hw

theorem required_ok {α : Type} {field : Field} {members : List (String × Json)} {v : Json} {a : α}
    {read : Path → (v : Json) → sizeOf v < sizeOf members → Checked α} {path : Path}
    (h : Json.lookup? field.wire members = some v) (hr : ∀ path hs, read path v hs = .ok a) :
    field.required path members read = .ok a := by
  rw [Field.required, find?_eq h]
  exact hr ..

theorem list_ok {α : Type} {field : Field} {members : List (String × Json)} {items : List Json}
    {as : List α} {read : Path → (items : List Json) → sizeOf items < sizeOf members → Checked (List α)}
    {path : Path} (h : Json.lookup? field.wire members = some (.arr items))
    (hr : ∀ path hs, read path items hs = .ok as) : field.list path members read = .ok as := by
  rw [Field.list, find?_eq h]
  exact hr ..

theorem both_ok {α β γ : Type} {f : α → β → γ} {x : Checked α} {y : Checked β} {a : α} {b : β}
    (hx : x = .ok a) (hy : y = .ok b) : Checked.both f x y = .ok (f a b) := by
  rw [hx, hy]
  rfl

theorem nameField_ok {path : Path} {members : List (String × Json)} {name : String}
    (h : Json.lookup? "value" members = some (.str name)) : nameField path members = .ok name :=
  required_ok h fun _ _ => rfl

theorem identifier_ok (path : Path) (name : String) :
    identifier path (Wire.identifier name) = .ok name := by
  rw [Wire.identifier, Wire.record, identifier]
  exact both_ok (checkKind_record rfl path) (nameField_ok rfl)

theorem identifiers_ok (path : Path) (i : Nat) (names : List String) :
    identifiers path i (names.map Wire.identifier) = .ok names := by
  induction names generalizing i with
  | nil => rfl
  | cons name names ih => exact both_ok (identifier_ok _ name) (ih _)

theorem namesField_ok {path : Path} {members : List (String × Json)} {names : List String}
    (h : Json.lookup? "identifiers" members = some (.arr (names.map Wire.identifier))) :
    namesField path members = .ok names :=
  list_ok h fun path _ => identifiers_ok path 0 names

theorem destructure_ok (path : Path) (names : List String) :
    destructure path (Wire.destructure names) = .ok names := by
  rw [Wire.destructure, Wire.record, destructure]
  exact both_ok (checkKind_record rfl path) (namesField_ok rfl)

theorem textField_ok {path : Path} {members : List (String × Json)} {t : Text} {s : String}
    (hs : t.toString? = some s) (h : Json.lookup? "value" members = some (.str s)) :
    textField path members = .ok t := by
  refine required_ok h fun _ _ => ?_
  rw [Text.toString?_eq_some.1 hs]
  rfl

theorem stringLiteral_ok {path : Path} {t : Text} {j : Json} (h : Wire.string? t = some j) :
    stringLiteral path j = .ok t := by
  obtain ⟨s, hs, rfl⟩ := Option.map_eq_some_iff.1 h
  rw [Wire.record, stringLiteral]
  exact both_ok (checkKind_record rfl path) (textField_ok hs rfl)

/-- Either the value, or one issue for each of the numbers that are refused. -/
def Loads {α : Type} (a : α) (refused : Nat) : Checked α → Prop
  | .ok b => b = a ∧ refused = 0
  | .error issues =>
    issues.length = refused ∧ 0 < refused ∧ ∀ issue ∈ issues, issue.cause = .scalar .floatType

variable {α β γ : Type} {a : α} {b : β} {m n : Nat} {x : Checked α} {y : Checked β}
  {members : List (String × Json)} {path : Path}

theorem loads_zero : Loads a 0 x ↔ x = .ok a := by
  cases x <;> simp [Loads]

theorem Loads.of_ok (h : x = .ok a) : Loads a 0 x := loads_zero.2 h

theorem Loads.both {f : α → β → γ} (hx : Loads a m x) (hy : Loads b n y) :
    Loads (f a b) (m + n) (Checked.both f x y) := by
  cases x with
  | ok a' =>
    obtain ⟨rfl, rfl⟩ := hx
    rw [Nat.zero_add]
    cases y with
    | ok b' => exact ⟨by rw [hy.1], hy.2⟩
    | error issues => exact hy
  | error issues =>
    obtain ⟨hl, hp, hc⟩ := hx
    cases y with
    | ok b' =>
      obtain ⟨rfl, rfl⟩ := hy
      exact ⟨hl, hp, hc⟩
    | error issues' =>
      obtain ⟨hl', hp', hc'⟩ := hy
      exact ⟨by rw [List.length_append, hl, hl'], by omega, List.forall_mem_append.2 ⟨hc, hc'⟩⟩

theorem Loads.map {f : α → β} (hx : Loads a n x) : Loads (f a) n (x.map f) := by
  cases x with
  | ok a' => exact ⟨congrArg f hx.1, hx.2⟩
  | error issues => exact hx

theorem Loads.required {field : Field} {v : Json}
    {read : Path → (v : Json) → sizeOf v < sizeOf members → Checked α}
    (h : Json.lookup? field.wire members = some v) (hr : ∀ path hs, Loads a n (read path v hs)) :
    Loads a n (field.required path members read) := by
  rw [Field.required, find?_eq h]
  exact hr ..

theorem Loads.list {as : List α} {field : Field} {items : List Json}
    {read : Path → (items : List Json) → sizeOf items < sizeOf members → Checked (List α)}
    (h : Json.lookup? field.wire members = some (.arr items))
    (hr : ∀ path hs, Loads as n (read path items hs)) : Loads as n (field.list path members read) := by
  rw [Field.list, find?_eq h]
  exact hr ..

end Load

namespace Node

theorem countP_cons_finite {node : Node} (h : node.isInfinite = false) (ns : List Node) :
    (node :: ns).countP isInfinite = ns.countP isInfinite :=
  List.countP_cons_of_neg (by simp [h])

section
variable [Json.Edition]

/-- JSON of a node: the reader accepts its text if it takes all the integers of the node, and what is
loaded from it is the node, unless some number has no JSON. -/
structure Writes (node : Node) (j : Json) : Prop where
  readable : ∀ {d}, node.nesting ≤ d → Json.Readable d j
  fits : Json.allFit j = node.subnodes.all isTaken
  loads : ∀ path, Load.Loads node (node.subnodes.countP isInfinite) (Load.node path j)

variable {target value callee : Node} {nodes : List Node} {t v c : Json} {js items : List Json}

theorem forall₂_writes (ih : ∀ n ∈ nodes, ∀ j, toJson? n = some j → Writes n j)
    (hj : listToJson? nodes = some js) : List.Forall₂ Writes nodes js :=
  ((List.forall₂_and_left _ _).2 ⟨ih, listToJson?_eq_some.1 hj⟩).imp fun _ j h => h.1 j h.2

theorem readable_written (h : List.Forall₂ Writes nodes js) {d : Nat} (hd : listNesting nodes ≤ d) :
    Json.Readable d (.arr js) := by
  refine readable_arr h fun n hn j hj => ?_
  have := le_listNesting hn
  exact ⟨by omega, hj.readable (by omega)⟩

@[simp] theorem allFit_record (kind : Kind) (fields : List (String × Json)) :
    Json.allFit (Wire.record kind fields) = fields.all fun f => Json.allFit f.2 := by
  simp [Wire.record, Json.allFit]

@[simp] theorem allFit_destructure (names : List String) : Json.allFit (Wire.destructure names) := by
  simp [Wire.destructure, Wire.identifier]

theorem fits_written (h : List.Forall₂ Writes nodes js) :
    Json.allFit (.arr js) = (listSubnodes nodes).all isTaken := by
  rw [Json.allFit_arr]
  induction h with
  | nil => rfl
  | cons hn _ ih => rw [List.all_cons, hn.fits, ih, listSubnodes, List.all_append]

theorem loads_list (h : List.Forall₂ Writes nodes js) (path : Load.Path) (i : Nat) :
    Load.Loads nodes ((listSubnodes nodes).countP isInfinite) (Load.nodes path i js) := by
  induction h generalizing i with
  | nil =>
    rw [Load.nodes]
    exact ⟨rfl, rfl⟩
  | cons hn _ ih =>
    rw [Load.nodes, listSubnodes, List.countP_append]
    exact (hn.loads _).both (ih _)

-- its equations are made here, once for all the kinds of nodes below
attribute [local simp] nesting

theorem all_isTaken_cons {node : Node} (h : node.isTaken) (ns : List Node) :
    (node :: ns).all isTaken = ns.all isTaken := by
  rw [List.all_cons, h, Bool.true_and]

theorem writes_scalar {node : Node} {kind : Kind} (hn : node.nesting = 1) (hv : ∀ d, Json.Readable d v)
    (hf : Json.allFit v = node.isTaken) (hs : node.subnodes = [node])
    (hl : ∀ path, Load.Loads node (node.subnodes.countP isInfinite)
      (Load.fields path kind [("type", .str kind.name), ("value", v)])) :
    Writes node (Wire.record kind [("value", v)]) := by
  refine ⟨fun hd => readable_record (by omega) (by simpa using hv _), ?_, fun path => ?_⟩
  · simp [hf, hs]
  · rw [Load.node_record rfl]
    exact hl _

theorem writes_float (value : Binary64) :
    Writes (.float value) (Wire.record .float [("value", Wire.number value)]) := by
  refine writes_scalar rfl (fun d => ?_) ?_ rfl fun path => ?_
  · cases value with
    | finite negative rank => exact .float _ negative rank
    | infinite negative | nan => exact .null _
  · cases value <;> simp [Wire.number, Json.allFit, isTaken]
  · rw [Load.fields]
    cases value with
    | finite negative rank => exact .required rfl fun _ _ => ⟨rfl, rfl⟩
    | infinite negative | nan => exact .required rfl fun _ _ => ⟨rfl, Nat.one_pos, by simp⟩

theorem writes_assignment (ht : Writes target t) (hv : Writes value v) :
    Writes (.assignment target value)
      (Wire.record .assignment [("assignTo", t), ("assignValue", v)]) := by
  refine ⟨fun hd => ?_, ?_, fun path => ?_⟩
  · rw [nesting] at hd
    refine readable_record (by omega) ?_
    simpa using ⟨ht.readable (by omega), hv.readable (by omega)⟩
  · rw [subnodes, all_isTaken_cons rfl, List.all_append, ← ht.fits, ← hv.fits]
    simp
  · rw [Load.node_record rfl, Load.fields, subnodes, countP_cons_finite rfl, List.countP_append]
    exact .both (.required rfl fun path _ => ht.loads path) (.required rfl fun path _ => hv.loads path)

theorem writes_destructure (names : List String) :
    Writes (.destructure names) (Wire.destructure names) := by
  refine ⟨fun hd => ?_, ?_, fun path => ?_⟩
  · rw [nesting] at hd
    exact readable_destructure names hd
  · simp [subnodes, isTaken]
  · rw [Wire.destructure, Load.node_record rfl, Load.fields]
    exact .map (.of_ok (Load.namesField_ok rfl))

theorem writes_destructuredAssignment (names : List String) (hv : Writes value v) :
    Writes (.destructuredAssignment names value) (Wire.record .destructuredAssignment
      [("assignTo", Wire.destructure names), ("assignValue", v)]) := by
  refine ⟨fun hd => ?_, ?_, fun path => ?_⟩
  · rw [nesting] at hd
    refine readable_record (by omega) ?_
    simpa using ⟨readable_destructure names (by omega), hv.readable (by omega)⟩
  · rw [subnodes, all_isTaken_cons rfl, ← hv.fits]
    simp
  · rw [Load.node_record rfl, Load.fields, subnodes, countP_cons_finite rfl, ← Nat.zero_add (List.countP ..)]
    exact .both (.required rfl fun path _ => .of_ok (Load.destructure_ok path names))
      (.required rfl fun path _ => hv.loads path)

theorem writes_invocation (hc : Writes callee c) (ha : List.Forall₂ Writes nodes js) :
    Writes (.invocation callee nodes)
      (Wire.record .invocation [("invokedValue", c), ("argsList", .arr js)]) := by
  refine ⟨fun hd => ?_, ?_, fun path => ?_⟩
  · rw [nesting] at hd
    refine readable_record (by omega) ?_
    simpa using ⟨hc.readable (by omega), readable_written ha (by omega)⟩
  · rw [subnodes, all_isTaken_cons rfl, List.all_append, ← hc.fits, ← fits_written ha]
    simp
  · rw [Load.node_record rfl, Load.fields, subnodes, countP_cons_finite rfl, List.countP_append]
    exact .both (.required rfl fun path _ => hc.loads path) (.list rfl fun path _ => loads_list ha path 0)

def WritesParameters : List (List Node) → List Json → Prop :=
  List.Forall₂ fun es j =>
    ∃ items, Wire.record .arg [("expressions", .arr items)] = j ∧ List.Forall₂ Writes es items

theorem readable_parameters {parameters : List (List Node)} (h : WritesParameters parameters js) {d : Nat}
    (hd : parameterNesting parameters ≤ d) : Json.Readable d (.arr js) := by
  refine readable_arr h ?_
  rintro es hes j ⟨items, rfl, hi⟩
  have := le_parameterNesting hes
  exact ⟨by omega, readable_record (by omega) (by simpa using readable_written hi (by omega))⟩

theorem fits_parameters {parameters : List (List Node)} (h : WritesParameters parameters js) :
    Json.allFit (.arr js) = (parameterSubnodes parameters).all isTaken := by
  rw [Json.allFit_arr]
  induction h with
  | nil => rfl
  | cons hp _ ih =>
    obtain ⟨items, rfl, hi⟩ := hp
    rw [List.all_cons, ih, parameterSubnodes, List.all_append, ← fits_written hi, allFit_record]
    simp

theorem loads_parameters {parameters : List (List Node)} (h : WritesParameters parameters js)
    (path : Load.Path) (i : Nat) :
    Load.Loads parameters ((parameterSubnodes parameters).countP isInfinite)
      (Load.parameters path i js) := by
  induction h generalizing i with
  | nil =>
    rw [Load.parameters]
    exact ⟨rfl, rfl⟩
  | cons hp _ ih =>
    obtain ⟨items, rfl, hi⟩ := hp
    rw [Wire.record, Load.parameters, parameterSubnodes, List.countP_append,
      ← Nat.zero_add ((listSubnodes _).countP isInfinite)]
    exact .both (.both (.of_ok (Load.checkKind_record rfl _)) (.list rfl fun path _ => loads_list hi path 0))
      (ih _)

theorem writes_function {parameters : List (List Node)} (hp : WritesParameters parameters items)
    (hb : List.Forall₂ Writes nodes js) :
    Writes (.function parameters nodes)
      (Wire.record .function [("argList", .arr items), ("body", .arr js)]) := by
  refine ⟨fun hd => ?_, ?_, fun path => ?_⟩
  · rw [nesting] at hd
    refine readable_record (by omega) ?_
    simpa using ⟨readable_parameters hp (by omega), readable_written hb (by omega)⟩
  · rw [subnodes, all_isTaken_cons rfl, List.all_append, ← fits_parameters hp, ← fits_written hb]
    simp
  · rw [Load.node_record rfl, Load.fields, subnodes, countP_cons_finite rfl, List.countP_append]
    exact .both (.list rfl fun path _ => loads_parameters hp path 0)
      (.list rfl fun path _ => loads_list hb path 0)

theorem writes_arg (h : List.Forall₂ Writes nodes js) :
    Writes (.arg nodes) (Wire.record .arg [("expressions", .arr js)]) := by
  refine ⟨fun hd => ?_, ?_, fun path => ?_⟩
  · rw [nesting] at hd
    exact readable_record (by omega) (by simpa using readable_written h (by omega))
  · rw [subnodes, all_isTaken_cons rfl, ← fits_written h]
    simp
  · rw [Load.node_record rfl, Load.fields, subnodes, countP_cons_finite rfl]
    exact .map (.list rfl fun path _ => loads_list h path 0)

theorem writes_array (h : List.Forall₂ Writes nodes js) :
    Writes (.array nodes) (Wire.record .array [("items", .arr js)]) := by
  refine ⟨fun hd => ?_, ?_, fun path => ?_⟩
  · rw [nesting] at hd
    exact readable_record (by omega) (by simpa using readable_written h (by omega))
  · rw [subnodes, all_isTaken_cons rfl, ← fits_written h]
    simp
  · rw [Load.node_record rfl, Load.fields, subnodes, countP_cons_finite rfl]
    exact .map (.list rfl fun path _ => loads_list h path 0)

def WritesEntries : List (Node × Node) → List Json → Prop :=
  List.Forall₂ fun e j =>
    ∃ key value, .obj [("key", key), ("value", value)] = j ∧ Writes e.1 key ∧ Writes e.2 value

theorem readable_entries {entries : List (Node × Node)} (h : WritesEntries entries js) {d : Nat}
    (hd : entryNesting entries ≤ d) : Json.Readable d (.arr js) := by
  refine readable_arr h ?_
  rintro e he j ⟨key, value, rfl, hk, hv⟩
  have := le_entryNesting he
  refine ⟨by omega, readable_obj (by omega) ?_⟩
  simpa using ⟨hk.readable (by omega), hv.readable (by omega)⟩

theorem fits_entries {entries : List (Node × Node)} (h : WritesEntries entries js) :
    Json.allFit (.arr js) = (entrySubnodes entries).all isTaken := by
  rw [Json.allFit_arr]
  induction h with
  | nil => rfl
  | @cons e _ _ _ he _ ih =>
    obtain ⟨key, value, rfl, hk, hv⟩ := he
    rw [List.all_cons, ih, entrySubnodes, List.all_append, List.all_append, ← hk.fits, ← hv.fits]
    simp

theorem loads_entries {entries : List (Node × Node)} (h : WritesEntries entries js) (path : Load.Path)
    (i : Nat) :
    Load.Loads entries ((entrySubnodes entries).countP isInfinite) (Load.entries path i js) := by
  induction h generalizing i with
  | nil =>
    rw [Load.entries]
    exact ⟨rfl, rfl⟩
  | @cons e _ _ _ he _ ih =>
    obtain ⟨key, value, rfl, hk, hv⟩ := he
    rw [Load.entries, entrySubnodes, List.countP_append, List.countP_append]
    exact .both (.both (.required rfl fun path _ => hk.loads path)
      (.required rfl fun path _ => hv.loads path)) (ih _)

theorem writes_object {entries : List (Node × Node)} (h : WritesEntries entries js) :
    Writes (.object entries) (Wire.record .object [("entries", .arr js)]) := by
  refine ⟨fun hd => ?_, ?_, fun path => ?_⟩
  · rw [nesting] at hd
    exact readable_record (by omega) (by simpa using readable_entries h (by omega))
  · rw [subnodes, all_isTaken_cons rfl, ← fits_entries h]
    simp
  · rw [Load.node_record rfl, Load.fields, subnodes, countP_cons_finite rfl]
    exact .map (.list rfl fun path _ => loads_entries h path 0)

theorem writes_imports (name : String) {path : Text} (hj : Wire.string? path = some v) :
    Writes (.imports name path)
      (Wire.record .imports [("assignTo", Wire.identifier name), ("importFrom", v)]) := by
  refine ⟨fun hd => ?_, ?_, fun p => ?_⟩
  · rw [nesting] at hd
    refine readable_record (by omega) ?_
    obtain ⟨s, -, rfl⟩ := Option.map_eq_some_iff.1 hj
    simpa using ⟨readable_identifier name (by omega),
      readable_record (by omega) (by simpa using .str _ s)⟩
  · obtain ⟨s, -, rfl⟩ := Option.map_eq_some_iff.1 hj
    simp [subnodes, isTaken, Wire.identifier, Json.allFit]
  · rw [Load.node_record rfl, Load.fields]
    exact .both (.required rfl fun p _ => .of_ok (Load.identifier_ok p name))
      (.required rfl fun p _ => .of_ok (Load.stringLiteral_ok hj))

theorem writes_toJson? (node : Node) (j : Json) (hj : node.toJson? = some j) : node.Writes j := by
  induction node using Node.induction generalizing j with
  | integer value =>
    cases hj
    refine writes_scalar rfl (fun _ => .int _ value) ?_ rfl fun path => ?_
    · rw [Json.allFit, isTaken]
    · rw [Load.fields]
      exact .required rfl fun _ _ => ⟨rfl, rfl⟩
  | float value =>
    cases hj
    exact writes_float value
  | boolean value =>
    cases hj
    refine writes_scalar rfl (fun _ => .bool _ value) ?_ rfl fun path => ?_
    · simp [Json.allFit, isTaken]
    · rw [Load.fields]
      exact .required rfl fun _ _ => ⟨rfl, rfl⟩
  | string value =>
    obtain ⟨s, hs, rfl⟩ := Option.map_eq_some_iff.1 hj
    refine writes_scalar rfl (fun _ => .str _ s) ?_ rfl fun path => ?_
    · simp [Json.allFit, isTaken]
    · rw [Load.fields]
      exact .map (.of_ok (Load.textField_ok hs rfl))
  | identifier name =>
    cases hj
    refine writes_scalar rfl (fun _ => .str _ name) ?_ rfl fun path => ?_
    · simp [Json.allFit, isTaken]
    · rw [Load.fields]
      exact .map (.of_ok (Load.nameField_ok rfl))
  | assignment target value iht ihv =>
    obtain ⟨t, ht, v, hv, rfl⟩ := eq_some_both hj
    exact writes_assignment (iht t ht) (ihv v hv)
  | destructuredAssignment names value ih =>
    obtain ⟨v, hv, rfl⟩ := eq_some_single hj
    exact writes_destructuredAssignment names (ih v hv)
  | destructure names =>
    cases hj
    exact writes_destructure names
  | invocation callee arguments ihc iha =>
    obtain ⟨c, hc, js, ha, rfl⟩ := eq_some_both hj
    exact writes_invocation (ihc c hc) (forall₂_writes iha ha)
  | function parameters body ihp ihb =>
    obtain ⟨items, hp, js, hb, rfl⟩ := eq_some_both hj
    refine writes_function ?_ (forall₂_writes ihb hb)
    have hes : ∀ es ∈ parameters, ∀ js, listToJson? es = some js → List.Forall₂ Writes es js :=
      fun es hes js => forall₂_writes (ihp es hes)
    refine ((List.forall₂_and_left _ _).2 ⟨hes, parametersToJson?_eq_some.1 hp⟩).imp ?_
    rintro es j ⟨hes, js, hjs, rfl⟩
    exact ⟨js, rfl, hes js hjs⟩
  | arg expressions ih =>
    obtain ⟨js, he, rfl⟩ := eq_some_single hj
    exact writes_arg (forall₂_writes ih he)
  | object entries ih =>
    obtain ⟨js, he, rfl⟩ := eq_some_single hj
    refine writes_object (((List.forall₂_and_left _ _).2 ⟨ih, entriesToJson?_eq_some.1 he⟩).imp ?_)
    rintro e j ⟨⟨hk, hv⟩, key, value, hkey, hvalue, rfl⟩
    exact ⟨key, value, rfl, hk key hkey, hv value hvalue⟩
  | array items ih =>
    obtain ⟨js, hi, rfl⟩ := eq_some_single hj
    exact writes_array (forall₂_writes ih hi)
  | imports name path =>
    obtain ⟨v, hv, rfl⟩ := eq_some_single hj
    exact writes_imports name hv

end
end Node

namespace Program

theorem escaping_unicode : Literal.unicode.Escaping := fun _ h => of_decide_eq_true h

section
variable {program : Program} {indent : Option Nat} {text : String}

theorem dump_eq_ok_iff :
    program.dump indent = .ok text ↔
      ∃ js, Node.listToJson? program = some js ∧ Json.render ⟨indent, Literal.unicode⟩ (.arr js) = text := by
  rw [dump, dump?]
  cases Node.listToJson? program <;> simp

theorem exists_dump (hs : ∀ n ∈ Node.listSubnodes program, n.isEncodable) (indent : Option Nat) :
    ∃ text, program.dump indent = .ok text := by
  rw [Node.forall_listSubnodes] at hs
  have hw : (Node.listToJson? program).isSome := by
    rw [Node.listToJson?_isSome]
    exact fun n h => (Node.toJson?_isSome n).2 (hs n h)
  obtain ⟨js, hjs⟩ := Option.isSome_iff_exists.1 hw
  exact ⟨_, dump_eq_ok_iff.2 ⟨js, hjs, rfl⟩⟩

variable [Json.Edition]

theorem written_of_dump (hw : program.dump indent = .ok text)
    (hd : Node.listNesting program ≤ Json.depthLimit) :
    ∃ js, Json.render ⟨indent, Literal.unicode⟩ (.arr js) = text ∧
      List.Forall₂ Node.Writes program js ∧ Json.Readable Json.depthLimit (.arr js) := by
  obtain ⟨js, hjs, hrender⟩ := dump_eq_ok_iff.1 hw
  have hwrites := Node.forall₂_writes (fun n _ => Node.writes_toJson? n) hjs
  exact ⟨js, hrender, hwrites, Node.readable_written hwrites hd⟩

theorem loads_dump (hw : program.dump indent = .ok text)
    (hn : ∀ n ∈ Node.listSubnodes program, n.isTaken)
    (hd : Node.listNesting program ≤ Json.depthLimit) :
    Load.Loads program ((Node.listSubnodes program).countP Node.isInfinite) (Program.load text) := by
  obtain ⟨js, rfl, hwrites, hreadable⟩ := written_of_dump hw hd
  have hfit : Json.allFit (.arr js) := by rwa [Node.fits_written hwrites, List.all_eq_true]
  rw [load, Json.read?, Json.readWithin_render escaping_unicode hreadable, if_pos hfit]
  exact Node.loads_list hwrites [] 0

theorem load_finite (hw : program.dump indent = .ok text)
    (hn : ∀ n ∈ Node.listSubnodes program, n.isTaken)
    (hd : Node.listNesting program ≤ Json.depthLimit)
    (hf : ∀ n ∈ Node.listSubnodes program, n.isInfinite = false) : Program.load text = .ok program := by
  have hl := loads_dump hw hn hd
  rw [List.countP_eq_zero.2 fun n h => Bool.eq_false_iff.1 (hf n h)] at hl
  exact Load.loads_zero.1 hl

/-- With an integer that the reader does not take, what was dumped is no document. -/
theorem load_refused (hw : program.dump indent = .ok text)
    (hn : ∃ n ∈ Node.listSubnodes program, n.isTaken = false)
    (hd : Node.listNesting program ≤ Json.depthLimit) : Program.load text = .fail .jsonInvalid [] := by
  obtain ⟨js, rfl, hwrites, hreadable⟩ := written_of_dump hw hd
  have hfit : Json.allFit (.arr js) = false := by
    simpa [Node.fits_written hwrites] using hn
  rw [load, Json.read?, Json.readWithin_render escaping_unicode hreadable, hfit]
  rfl

end

def everyKind : Program :=
  [.imports "lib" [.scalar '"', .scalar '\\', .scalar '\x07', .scalar '😀'],
    .destructuredAssignment ["a", "b"] (.array [.float (.finite true ⟨4503599627370497, by decide⟩),
      .string [.scalar '\n'], .string []]),
    .assignment (.destructure []) (.object [(.identifier "", .arg [.boolean true, .destructure ["c"]])]),
    .invocation (.function [[.identifier "x", .integer (-18446744073709551616)], []] [.object []]) []]

def negativePower (k : Nat) : Program := [.integer (-10 ^ k)]

theorem digits_negativePower (k : Nat) : Json.digits (-10 ^ k) = k + 1 := by
  have hle (l : Nat) (hl : 0 < l) : Json.digits (-10 ^ k) ≤ l ↔ k < l := by
    rw [Json.digits, Int.natAbs_neg, Int.natAbs_pow, Nat.length_toDigits_le_iff (by decide) hl]
    exact Nat.pow_lt_pow_iff_right (by decide)
  have hone := hle (k + 1) k.succ_pos
  cases k with
  | zero => rfl
  | succ k =>
    have hk := hle (k + 1) k.succ_pos
    omega

/-- A reader that counts the sign does refuse what was written for a power of ten. -/
theorem negativePower_refused [Json.Edition] (hsign : Json.Edition.countsSign = true) {k : Nat}
    (hk : k + 1 = Json.numberLimit) :
    ∃ text, (negativePower k).dump none = .ok text ∧ Program.load text = .fail .jsonInvalid [] := by
  have htaken : Node.isTaken (.integer (-10 ^ k)) = false := by
    rw [Node.isTaken, digits_negativePower, hk, Bool.eq_false_iff, ne_eq, Json.fits_iff]
    simp [hsign]
  obtain ⟨text, hw⟩ := @exists_dump (negativePower k)
    (by simp [negativePower, Node.listSubnodes, Node.subnodes, Node.isEncodable]) none
  refine ⟨text, hw, load_refused hw ⟨_, List.mem_cons_self, htaken⟩ ?_⟩
  simp [negativePower, Node.listNesting, Node.nesting, Json.depthLimit]

end Program
end AwaitScript
