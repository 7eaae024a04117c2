import AwaitScript.Ast.Load
import AwaitScript.Proofs.JsonCharacters

/-!
The fields that a document is read by. The place of a value decides what it is read as, and an object is
read from the fields that are known at its place: if these agree, two objects are read alike, whatever else
they hold and wherever they stand.
-/

namespace AwaitScript

namespace Json

def shallow : Json → Json
  | .arr _ => .arr []
  | .obj _ => .obj []
  | j => j

def items? : Json → Option (List Json)
  | .arr items => some items
  | _ => none

theorem mem_of_lookup? {key : String} {members : List (String × Json)} {v : Json}
    (h : lookup? key members = some v) : (key, v) ∈ members := by
  induction members with
  | nil => cases h
  | cons m members ih =>
    obtain ⟨k, w⟩ := m
    rw [lookup?] at h
    split at h
    · next u hu => exact List.mem_cons_of_mem _ (ih (hu.trans h))
    · split at h
      · next hk => simp_all
      · cases h

end Json

namespace Load

/-! ### Places and their fields -/

/-- What a value is read as. Nothing is read from inside of a plain one. -/
inductive Place where
  | plain
  | node
  | identifier
  | string
  | destructure
  | parameter
  | entry
  | list (item : Place)
deriving DecidableEq

deriving instance DecidableEq for Field

namespace Field

def tag : Field := ⟨"type", none⟩

def names (field : Field) : List String := field.wire :: field.other.toList

def given? (field : Field) (members : List (String × Json)) : Option Json :=
  (Json.lookup? field.wire members).or (field.other.bind (Json.lookup? · members))

end Field

/-- The fields of a node and what they are read as. -/
def layout (kind : Kind) : List (Field × Place) :=
  (.tag, .plain) ::
    match kind with
    | .integer | .float | .boolean | .string => [(.value, .plain)]
    | .identifier => [(.name, .plain)]
    | .assignment => [(.assignTo, .node), (.assignValue, .node)]
    | .destructuredAssignment => [(.assignTo, .destructure), (.assignValue, .node)]
    | .destructure => [(.identifiers, .list .identifier)]
    | .invocation => [(.invokedValue, .node), (.argsList, .list .node)]
    | .function => [(.argList, .list .parameter), (.body, .list .node)]
    | .arg => [(.expressions, .list .node)]
    | .object => [(.entries, .list .entry)]
    | .array => [(.items, .list .node)]
    | .imports => [(.assignTo, .identifier), (.importFrom, .string)]

namespace Place

/-- The fields that an object is read by. Of an object that claims no known kind, only the claim counts. -/
def layout (p : Place) (members : List (String × Json)) : List (Field × Place) :=
  match p with
  | plain | list _ => []
  | node =>
    match (kindOf [] members).toOption with
    | some kind => Load.layout kind
    | none => [(.tag, plain)]
  | identifier => Load.layout .identifier
  | string => Load.layout .string
  | destructure => Load.layout .destructure
  | parameter => Load.layout .arg
  | entry => [(.key, node), (.value, node)]

def member (p : Place) (members : List (String × Json)) (key : String) : Place :=
  match (p.layout members).find? fun e => key ∈ e.1.names with
  | some e => e.2
  | none => plain

def item : Place → Place
  | list p => p
  | _ => plain

def absent? : Place → Option Json
  | list _ => some (.arr [])
  | _ => none

end Place

def parameter [Json.Edition] (path : Path) : Json → Checked (List Node)
  | .obj members =>
    .both (fun _ expressions => expressions) (checkKind .arg path members)
      (Field.expressions.list path members fun path items _ => nodes path 0 items)
  | _ => .fail .modelType path

def entry [Json.Edition] (path : Path) : Json → Checked (Node × Node)
  | .obj members =>
    .both Prod.mk (Field.key.required path members fun path v _ => node path v)
      (Field.value.required path members fun path v _ => node path v)
  | _ => .fail .modelType path

theorem parameters_cons [Json.Edition] (path : Path) (i : Nat) (j : Json) (items : List Json) :
    parameters path i (j :: items) =
      .both List.cons (parameter (path ++ [.index i]) j) (parameters path (i + 1) items) := by
  cases j with
  | obj members =>
    rw [parameters]
    rfl
  | _ =>
    rw [parameters]
    · rfl
    · intro members h
      cases h

theorem entries_cons [Json.Edition] (path : Path) (i : Nat) (j : Json) (items : List Json) :
    entries path i (j :: items) =
      .both List.cons (entry (path ++ [.index i]) j) (entries path (i + 1) items) := by
  cases j with
  | obj members =>
    rw [entries]
    rfl
  | _ =>
    rw [entries]
    · rfl
    · intro members h
      cases h

/-! ### Documents that are read alike -/

/-- The same value or, for whatever reasons, none. -/
def SameOutcome {α : Type} (x y : Checked α) : Prop := x.toOption = y.toOption

section
variable {α β γ : Type}

theorem toOption_eq_some {x : Checked α} {a : α} : x.toOption = some a ↔ x = .ok a := by
  cases x <;> simp [Except.toOption]

theorem SameOutcome.ok_iff {x y : Checked α} (h : SameOutcome x y) (a : α) : x = .ok a ↔ y = .ok a := by
  rw [← toOption_eq_some, h, toOption_eq_some]

theorem SameOutcome.both {f : α → β → γ} {x x' : Checked α} {y y' : Checked β} (hx : SameOutcome x x')
    (hy : SameOutcome y y') : SameOutcome (.both f x y) (.both f x' y') := by
  unfold SameOutcome at hx hy
  cases x <;> cases x' <;> cases hx <;> cases y <;> cases y' <;> cases hy <;> rfl

theorem SameOutcome.map {f : α → β} {x x' : Checked α} (hx : SameOutcome x x') :
    SameOutcome (x.map f) (x'.map f) := by
  unfold SameOutcome at hx
  cases x <;> cases x' <;> cases hx <;> rfl

theorem SameOutcome.bind {f f' : α → Checked β} {x x' : Checked α} (hx : SameOutcome x x')
    (hf : ∀ a, x = .ok a → SameOutcome (f a) (f' a)) : SameOutcome (x >>= f) (x' >>= f') := by
  unfold SameOutcome at hx
  cases x with
  | error issues =>
    cases x' <;> cases hx
    rfl
  | ok a =>
    cases x' <;> cases hx
    exact hf a rfl

def SameRead (read : Path → Json → Checked α) (j j' : Json) : Prop :=
  ∀ path path', SameOutcome (read path j) (read path' j')

end

def Place.given? (p : Place) (field : Field) (members : List (String × Json)) : Option Json :=
  (field.given? members).or p.absent?

def array {α : Type} (readAll : Path → Nat → List Json → Checked (List α)) (path : Path) (j : Json) :
    Checked (List α) :=
  match j.items? with
  | some items => readAll path 0 items
  | none => .fail .listType path

section
variable {α : Type}

theorem find?_value (field : Field) (members : List (String × Json)) :
    (field.find? members).map (fun found => found.1.2) = field.given? members := by
  unfold Field.find? Field.given?
  split
  · next v hv => simp [hv]
  · next hv =>
    rw [hv, Option.none_or]
    cases field.other with
    | none => rfl
    | some other =>
      dsimp only [Option.bind_some]
      split
      · next w hw => simp [hw]
      · next hw => simp [hw]

theorem required_eq (field : Field) (path : Path) (members : List (String × Json))
    (read : Path → Json → Checked α) :
    ∃ path', field.required path members (fun path v _ => read path v) =
      match field.given? members with
      | none => .fail .missing path'
      | some v => read path' v := by
  rw [Field.required, ← find?_value]
  cases field.find? members with
  | none => exact ⟨_, rfl⟩
  | some found => exact ⟨_, rfl⟩

theorem list_eq (field : Field) (path : Path) (members : List (String × Json))
    {readAll : Path → Nat → List Json → Checked (List α)} (hnil : ∀ path i, readAll path i [] = .ok []) :
    ∃ path', field.list path members (fun path items _ => readAll path 0 items) =
      array readAll path' ((field.given? members).getD (.arr [])) := by
  rw [Field.list, ← find?_value]
  cases field.find? members with
  | none => exact ⟨path, (hnil path 0).symm⟩
  | some found =>
    obtain ⟨⟨key, v⟩, hv⟩ := found
    cases v <;> exact ⟨_, rfl⟩

theorem kindOf_eq (path : Path) (members : List (String × Json)) :
    kindOf path members =
      match (Json.lookup? "type" members).map Json.shallow with
      | none => .fail .tagNotFound path
      | some (.str s) =>
        match Kind.ofName? s with
        | some kind => .ok kind
        | none => .fail .tagInvalid path
      | some _ => .fail .tagInvalid path := by
  unfold kindOf
  cases Json.lookup? "type" members with
  | none => rfl
  | some v => cases v <;> rfl

theorem checkKind_eq (kind : Kind) (path : Path) (members : List (String × Json)) :
    checkKind kind path members =
      match (Json.lookup? "type" members).map Json.shallow with
      | none => .ok ()
      | some (.str s) => if s = kind.name then .ok () else .fail .literalError (path ++ [.key "type"])
      | some _ => .fail .literalError (path ++ [.key "type"]) := by
  unfold checkKind
  cases Json.lookup? "type" members with
  | none => rfl
  | some v => cases v <;> rfl

theorem tag_mem_layout (members : List (String × Json)) :
    (.tag, .plain) ∈ Place.node.layout members := by
  unfold Place.layout
  dsimp only
  split <;> simp [layout]

end

section
variable [Json.Edition]

def Same : Place → Json → Json → Prop
  | .plain => fun j j' => j.shallow = j'.shallow
  | .node => SameRead node
  | .identifier => SameRead identifier
  | .string => SameRead stringLiteral
  | .destructure => SameRead destructure
  | .parameter => SameRead parameter
  | .entry => SameRead entry
  | .list p => fun j j' => Option.Rel (List.Forall₂ (Same p)) j.items? j'.items?

def Agree (e : Field × Place) (members members' : List (String × Json)) : Prop :=
  Option.Rel (Same e.2) (e.2.given? e.1 members) (e.2.given? e.1 members')

section
variable {α : Type} {field : Field} {members members' : List (String × Json)}

theorem sameOutcome_required {p : Place} (read : Path → Json → Checked α) (hp : p.absent? = none)
    (h : Agree (field, p) members members') (hread : ∀ v v', Same p v v' → SameRead read v v')
    (path path' : Path) :
    SameOutcome (field.required path members fun path v _ => read path v)
      (field.required path' members' fun path v _ => read path v) := by
  obtain ⟨q, hq⟩ := required_eq field path members read
  obtain ⟨q', hq'⟩ := required_eq field path' members' read
  simp only [Agree, Place.given?, hp, Option.or_none] at h
  rw [hq, hq']
  generalize field.given? members = v at h ⊢
  generalize field.given? members' = v' at h ⊢
  cases h with
  | none => rfl
  | some h => exact hread _ _ h q q'

/-- A plain value is read from what it is on the outside. -/
theorem sameRead_scalar {read : Json → Except Scalar.Fault α} (hread : ∀ v, read v.shallow = read v)
    (v v' : Json) (h : Same .plain v v') : SameRead (fun path v => .ofScalar path (read v)) v v' := by
  intro path path'
  have heq : read v = read v' := by rw [← hread v, ← hread v', show v.shallow = v'.shallow from h]
  dsimp only
  rw [heq]
  cases read v' <;> rfl

theorem sameOutcome_scalar {β : Type} {read : Json → Except Scalar.Fault α}
    (hread : ∀ v, read v.shallow = read v) (f : α → β) (h : Agree (field, .plain) members members')
    (path path' : Path) :
    SameOutcome (field.required path members fun path v _ => (Checked.ofScalar path (read v)).map f)
      (field.required path' members' fun path v _ => (Checked.ofScalar path (read v)).map f) :=
  sameOutcome_required _ rfl h (fun v v' h path path' => (sameRead_scalar hread v v' h path path').map)
    path path'

/-! A list is read item by item. -/

variable {p : Place} (read : Path → Json → Checked α) {readAll : Path → Nat → List Json → Checked (List α)}
  (hnil : ∀ path i, readAll path i [] = .ok [])
  (hcons : ∀ path i j items, readAll path i (j :: items) =
    .both List.cons (read (path ++ [.index i]) j) (readAll path (i + 1) items))
include hnil hcons

theorem sameOutcome_items {items items' : List Json} (h : List.Forall₂ (Same p) items items')
    (hread : ∀ v v', Same p v v' → SameRead read v v') (path path' : Path) (i i' : Nat) :
    SameOutcome (readAll path i items) (readAll path' i' items') := by
  induction h generalizing i i' with
  | nil =>
    rw [hnil, hnil]
    rfl
  | cons h _ ih =>
    rw [hcons, hcons]
    exact .both (hread _ _ h _ _) (ih _ _)

theorem sameRead_array {j j' : Json} (h : Same (.list p) j j')
    (hread : ∀ v v', Same p v v' → SameRead read v v') : SameRead (array readAll) j j' := by
  intro path path'
  unfold array
  change Option.Rel _ j.items? j'.items? at h
  generalize j.items? = items at h ⊢
  generalize j'.items? = items' at h ⊢
  cases h with
  | none => rfl
  | some h => exact sameOutcome_items read hnil hcons h hread path path' 0 0

theorem sameOutcome_list (h : Agree (field, .list p) members members')
    (hread : ∀ v v', Same p v v' → SameRead read v v') (path path' : Path) :
    SameOutcome (field.list path members fun path items _ => readAll path 0 items)
      (field.list path' members' fun path items _ => readAll path 0 items) := by
  obtain ⟨q, hq⟩ := list_eq field path members hnil
  obtain ⟨q', hq'⟩ := list_eq field path' members' hnil
  simp only [Agree, Place.given?, Place.absent?, Option.or_some] at h
  rw [hq, hq']
  cases h with
  | some h => exact sameRead_array read hnil hcons h hread q q'

end

section
variable {members members' : List (String × Json)}

theorem sameOutcome_nodes {field : Field} (h : Agree (field, .list .node) members members')
    (path path' : Path) :
    SameOutcome (field.list path members fun path items _ => nodes path 0 items)
      (field.list path' members' fun path items _ => nodes path 0 items) :=
  sameOutcome_list node (fun _ _ => by rw [nodes]) (fun _ _ _ _ => by rw [nodes]) h (fun _ _ h => h)
    path path'

/-! ### Objects -/

theorem shallow_tag (h : Agree (.tag, .plain) members members') :
    (Json.lookup? "type" members).map Json.shallow = (Json.lookup? "type" members').map Json.shallow := by
  simp only [Agree, Place.given?, Place.absent?, Option.or_none, Field.given?, Field.tag,
    Option.bind_none] at h
  generalize Json.lookup? "type" members = v at h ⊢
  generalize Json.lookup? "type" members' = v' at h ⊢
  cases h with
  | none => rfl
  | some h => exact congrArg some h

theorem sameOutcome_kindOf (h : Agree (.tag, .plain) members members') (path path' : Path) :
    SameOutcome (kindOf path members) (kindOf path' members') := by
  rw [kindOf_eq, kindOf_eq, shallow_tag h]
  split
  · rfl
  · split <;> rfl
  · rfl

theorem sameOutcome_checkKind (h : Agree (.tag, .plain) members members') (kind : Kind) (path path' : Path) :
    SameOutcome (checkKind kind path members) (checkKind kind path' members') := by
  rw [checkKind_eq, checkKind_eq, shallow_tag h]
  split
  · rfl
  · split <;> rfl
  · rfl

theorem sameOutcome_nameField (h : Agree (.name, .plain) members members') (path path' : Path) :
    SameOutcome (nameField path members) (nameField path' members') :=
  sameOutcome_required _ rfl h (sameRead_scalar fun v => by cases v <;> rfl) path path'

theorem sameOutcome_textField (h : Agree (.value, .plain) members members') (path path' : Path) :
    SameOutcome (textField path members) (textField path' members') :=
  sameOutcome_scalar (fun v => by cases v <;> rfl) _ h path path'

theorem sameOutcome_namesField (h : Agree (.identifiers, .list .identifier) members members')
    (path path' : Path) : SameOutcome (namesField path members) (namesField path' members') :=
  sameOutcome_list identifier (fun _ _ => rfl) (fun _ _ _ _ => rfl) h (fun _ _ h => h) path path'

theorem sameOutcome_fields {kind : Kind} (h : ∀ e ∈ layout kind, Agree e members members')
    (path path' : Path) : SameOutcome (fields path kind members) (fields path' kind members') := by
  cases kind with
  | integer =>
    rw [fields, fields]
    exact sameOutcome_scalar (fun v => by cases v <;> rfl) _ (h (.value, .plain) (by simp [layout])) _ _
  | float =>
    rw [fields, fields]
    exact sameOutcome_scalar (fun v => by cases v <;> rfl) _ (h (.value, .plain) (by simp [layout])) _ _
  | boolean =>
    rw [fields, fields]
    exact sameOutcome_scalar (fun v => by cases v <;> rfl) _ (h (.value, .plain) (by simp [layout])) _ _
  | string =>
    rw [fields, fields]
    exact (sameOutcome_textField (h (.value, .plain) (by simp [layout])) _ _).map
  | identifier =>
    rw [fields, fields]
    exact (sameOutcome_nameField (h (.name, .plain) (by simp [layout])) _ _).map
  | assignment =>
    rw [fields, fields]
    exact .both
      (sameOutcome_required node rfl (h (.assignTo, .node) (by simp [layout])) (fun _ _ h => h) _ _)
      (sameOutcome_required node rfl (h (.assignValue, .node) (by simp [layout])) (fun _ _ h => h) _ _)
  | destructuredAssignment =>
    rw [fields, fields]
    exact .both
      (sameOutcome_required destructure rfl (h (.assignTo, .destructure) (by simp [layout]))
        (fun _ _ h => h) _ _)
      (sameOutcome_required node rfl (h (.assignValue, .node) (by simp [layout])) (fun _ _ h => h) _ _)
  | destructure =>
    rw [fields, fields]
    exact (sameOutcome_namesField (h (.identifiers, .list .identifier) (by simp [layout])) _ _).map
  | invocation =>
    rw [fields, fields]
    exact .both
      (sameOutcome_required node rfl (h (.invokedValue, .node) (by simp [layout])) (fun _ _ h => h) _ _)
      (sameOutcome_nodes (h (.argsList, .list .node) (by simp [layout])) _ _)
  | function =>
    rw [fields, fields]
    exact .both
      (sameOutcome_list parameter (fun _ _ => by rw [parameters]) parameters_cons
        (h (.argList, .list .parameter) (by simp [layout])) (fun _ _ h => h) _ _)
      (sameOutcome_nodes (h (.body, .list .node) (by simp [layout])) _ _)
  | arg =>
    rw [fields, fields]
    exact (sameOutcome_nodes (h (.expressions, .list .node) (by simp [layout])) _ _).map
  | object =>
    rw [fields, fields]
    exact (sameOutcome_list entry (fun _ _ => by rw [entries]) entries_cons
      (h (.entries, .list .entry) (by simp [layout])) (fun _ _ h => h) _ _).map
  | array =>
    rw [fields, fields]
    exact (sameOutcome_nodes (h (.items, .list .node) (by simp [layout])) _ _).map
  | imports =>
    rw [fields, fields]
    exact .both
      (sameOutcome_required identifier rfl (h (.assignTo, .identifier) (by simp [layout]))
        (fun _ _ h => h) _ _)
      (sameOutcome_required stringLiteral rfl (h (.importFrom, .string) (by simp [layout]))
        (fun _ _ h => h) _ _)

theorem layout_eq {p : Place} (h : ∀ e ∈ p.layout members, Agree e members members') :
    p.layout members' = p.layout members := by
  cases p with
  | node =>
    have hkind : (kindOf [] members).toOption = (kindOf [] members').toOption :=
      sameOutcome_kindOf (h _ (tag_mem_layout members)) [] []
    simp only [Place.layout, hkind]
  | _ => rfl

theorem node_obj (path : Path) (members : List (String × Json)) :
    node path (.obj members) =
      kindOf path members >>= fun kind => fields (path ++ [.key kind.name]) kind members := by
  rw [node]
  cases kindOf path members <;> rfl

theorem sameRead_node (h : ∀ e ∈ Place.node.layout members, Agree e members members') :
    SameRead node (.obj members) (.obj members') := by
  intro path path'
  have htag := h _ (tag_mem_layout members)
  rw [node_obj, node_obj]
  refine .bind (sameOutcome_kindOf htag path path') fun kind hkind => sameOutcome_fields ?_ _ _
  have hroot : kindOf [] members' = .ok kind := ((sameOutcome_kindOf htag path []).ok_iff kind).1 hkind
  have hlayout : Place.node.layout members = layout kind := by
    rw [← layout_eq h]
    simp [Place.layout, hroot, Except.toOption]
  exact hlayout ▸ h

/-- Objects whose known fields agree are read alike. -/
theorem same_obj {p : Place} (h : ∀ e ∈ p.layout members, Agree e members members') :
    Same p (.obj members) (.obj members') := by
  cases p with
  | plain => rfl
  | node => exact sameRead_node h
  | identifier =>
    intro path path'
    exact .both (sameOutcome_checkKind (h (.tag, .plain) (by simp [Place.layout, layout])) _ _ _)
      (sameOutcome_nameField (h (.name, .plain) (by simp [Place.layout, layout])) _ _)
  | string =>
    intro path path'
    exact .both (sameOutcome_checkKind (h (.tag, .plain) (by simp [Place.layout, layout])) _ _ _)
      (sameOutcome_textField (h (.value, .plain) (by simp [Place.layout, layout])) _ _)
  | destructure =>
    intro path path'
    exact .both (sameOutcome_checkKind (h (.tag, .plain) (by simp [Place.layout, layout])) _ _ _)
      (sameOutcome_namesField (h (.identifiers, .list .identifier) (by simp [Place.layout, layout])) _ _)
  | parameter =>
    intro path path'
    exact .both (sameOutcome_checkKind (h (.tag, .plain) (by simp [Place.layout, layout])) _ _ _)
      (sameOutcome_nodes (h (.expressions, .list .node) (by simp [Place.layout, layout])) _ _)
  | entry =>
    intro path path'
    exact .both
      (sameOutcome_required node rfl (h (.key, .node) (by simp [Place.layout])) (fun _ _ h => h) _ _)
      (sameOutcome_required node rfl (h (.value, .node) (by simp [Place.layout])) (fun _ _ h => h) _ _)
  | list p => exact .none

theorem sameRead_node_of_ne {j j' : Json} (h : ∀ members, j ≠ .obj members)
    (h' : ∀ members, j' ≠ .obj members) : SameRead node j j' := by
  intro path path'
  rw [node, node]
  · rfl
  · exact h'
  · exact h

theorem same_arr {p : Place} {items items' : List Json} (h : List.Forall₂ (Same p.item) items items') :
    Same p (.arr items) (.arr items') := by
  cases p with
  | plain => rfl
  | node => exact sameRead_node_of_ne (by simp) (by simp)
  | list p => exact .some h
  | _ => exact fun _ _ => rfl

end

theorem agree_refl {e : Field × Place} {members : List (String × Json)}
    (h : ∀ m ∈ members, Same e.2 m.2 m.2) : Agree e members members := by
  have hlookup {key : String} {v : Json} (hv : Json.lookup? key members = some v) : Same e.2 v v :=
    h _ (Json.mem_of_lookup? hv)
  have hsame : ∀ v ∈ e.2.given? e.1 members, Same e.2 v v := by
    intro v hv
    simp only [Place.given?, Field.given?, Option.mem_def, Option.or_eq_some_iff,
      Option.bind_eq_some_iff] at hv
    rcases hv with (hv | ⟨-, other, -, hv⟩) | ⟨-, hv⟩
    · exact hlookup hv
    · exact hlookup hv
    · obtain ⟨f, p⟩ := e
      cases p <;> cases hv
      exact .some .nil
  unfold Agree
  cases hgiven : e.2.given? e.1 members with
  | none => exact .none
  | some v => exact .some (hsame v hgiven)

theorem same_refl (p : Place) (j : Json) : Same p j j := by
  induction j using Json.induction generalizing p with
  | obj members ih => exact same_obj fun e _ => agree_refl fun m hm => ih m hm e.2
  | arr items ih => exact same_arr (List.forall₂_same.2 fun j hj => ih j hj p.item)
  | _ =>
    cases p with
    | plain => rfl
    | node => exact sameRead_node_of_ne (by simp) (by simp)
    | list p => exact .none
    | _ => exact fun _ _ => rfl

end
end Load
end AwaitScript
