import AwaitScript.Proofs.KnownFields
import AwaitScript.Proofs.WireRoundTrip

/-!
A program is loaded from the recognised members of a document. As long as no field is given twice, the
members of any object may stand in another order, others may be added that are not recognised, a field may
be given by its second name and an empty list may be left out: the program stays the same. Only the limits
of the reader count for all members, the added ones included.
-/

namespace AwaitScript

namespace Load

/-! ### Fields that are given once -/

namespace Field

def values (field : Field) (members : List (String × Json)) : List Json :=
  (members.filter fun m => m.1 ∈ field.names).map Prod.snd

variable {field : Field} {members before after : List (String × Json)} {key : String} {v : Json}

theorem values_cons (field : Field) (m : String × Json) (members : List (String × Json)) :
    field.values (m :: members) =
      if m.1 ∈ field.names then m.2 :: field.values members else field.values members := by
  unfold values
  split <;> simp_all

theorem values_append (field : Field) (before after : List (String × Json)) :
    field.values (before ++ after) = field.values before ++ field.values after := by
  simp [values]

theorem values_skip (hkey : key ∉ field.names) :
    field.values (before ++ (key, v) :: after) = field.values (before ++ after) := by
  rw [values_append, values_append, values_cons, if_neg hkey]

theorem values_only (hkey : key ∈ field.names)
    (h : (field.values (before ++ (key, v) :: after)).length ≤ 1) :
    field.values before = [] ∧ field.values after = [] := by
  rw [values_append, values_cons, if_pos hkey, List.length_append, List.length_cons] at h
  exact ⟨List.eq_nil_of_length_eq_zero (by omega), List.eq_nil_of_length_eq_zero (by omega)⟩

theorem lookup?_of_values_nil (h : field.values members = []) (hkey : key ∈ field.names) :
    Json.lookup? key members = none := by
  cases hv : Json.lookup? key members with
  | none => rfl
  | some v =>
    have hmem : v ∈ field.values members :=
      List.mem_map.2 ⟨(key, v), by simp [Json.mem_of_lookup? hv, hkey], rfl⟩
    rw [h] at hmem
    cases hmem

theorem wire_mem_names (field : Field) : field.wire ∈ field.names := List.mem_cons_self ..

theorem other_mem_names {other : String} (h : field.other = some other) : other ∈ field.names := by
  simp [names, h]

theorem given?_skip {m : String × Json} (hm : m.1 ∉ field.names) :
    field.given? (m :: members) = field.given? members := by
  have hskip {key : String} (hkey : key ∈ field.names) :
      Json.lookup? key (m :: members) = Json.lookup? key members := by
    have hne : m.1 ≠ key := fun heq => hm (heq ▸ hkey)
    rw [Json.lookup?, if_neg hne]
    cases Json.lookup? key members <;> rfl
  rw [given?, given?, hskip field.wire_mem_names]
  cases hfield : field.other with
  | none => rfl
  | some other => rw [Option.bind_some, Option.bind_some, hskip (other_mem_names hfield)]

theorem given?_only {m : String × Json} (hm : m.1 ∈ field.names) (hnil : field.values members = []) :
    field.given? (m :: members) = some m.2 := by
  have hfirst {key : String} (hkey : key ∈ field.names) :
      Json.lookup? key (m :: members) = if m.1 = key then some m.2 else none := by
    rw [Json.lookup?, lookup?_of_values_nil hnil hkey]
  rw [given?, hfirst field.wire_mem_names]
  cases hfield : field.other with
  | none =>
    have hwire : m.1 = field.wire := by simpa [names, hfield] using hm
    simp [hwire]
  | some other =>
    have hnames : m.1 = field.wire ∨ m.1 = other := by simpa [names, hfield] using hm
    rw [Option.bind_some, hfirst (other_mem_names hfield)]
    by_cases hwire : m.1 = field.wire
    · simp [hwire]
    · rw [if_neg hwire, if_pos (hnames.resolve_left hwire)]
      rfl

theorem length_values_le_one (hkeys : (members.map Prod.fst).Nodup)
    (hnames : ∀ other, field.other = some other →
      ¬ (field.wire ∈ members.map Prod.fst ∧ other ∈ members.map Prod.fst)) :
    (field.values members).length ≤ 1 := by
  induction members with
  | nil => exact Nat.zero_le 1
  | cons m members ih =>
    rw [List.map_cons, List.nodup_cons] at hkeys
    simp only [List.map_cons, List.mem_cons] at hnames
    rw [values_cons]
    split
    · next hm =>
      have hnil : field.values members = [] := by
        by_contra hvalues
        obtain ⟨v, hv⟩ := List.exists_mem_of_ne_nil _ hvalues
        obtain ⟨⟨key, w⟩, hmem, -⟩ := List.mem_map.1 hv
        obtain ⟨hmem, hkey⟩ : (key, w) ∈ members ∧ key ∈ field.names := by simpa using hmem
        have hkey' : key ∈ members.map Prod.fst := List.mem_map_of_mem hmem
        have hne : key ≠ m.1 := fun heq => hkeys.1 (heq ▸ hkey')
        -- two keys of one field that differ are its two names
        cases hfield : field.other with
        | none => simp_all [names]
        | some other =>
          refine hnames other hfield ?_
          simp only [names, hfield, Option.toList_some, List.mem_cons, List.not_mem_nil, or_false] at hm hkey
          rcases hm with hm | hm <;> rcases hkey with rfl | rfl
          · exact absurd hm.symm hne
          · exact ⟨.inl hm.symm, .inr hkey'⟩
          · exact ⟨.inr hkey', .inl hm.symm⟩
          · exact absurd hm.symm hne
      rw [hnil]
      rfl
    · exact ih hkeys.2 fun other hother h => hnames other hother ⟨.inr h.1, .inr h.2⟩

/-- If a field is given once, it does not matter under which name. -/
theorem given?_eq_head? (h : (field.values members).length ≤ 1) :
    field.given? members = (field.values members).head? := by
  induction members with
  | nil => cases hfield : field.other <;> simp [given?, Json.lookup?, values, hfield]
  | cons m members ih =>
    by_cases hm : m.1 ∈ field.names
    · rw [values_cons, if_pos hm, List.length_cons] at h
      rw [values_cons, if_pos hm, given?_only hm (List.eq_nil_of_length_eq_zero (by omega))]
      rfl
    · rw [values_cons, if_neg hm] at h ⊢
      rw [given?_skip hm, ih h]

end Field

/-! ### One change -/

/-- A change of a document that keeps its recognised members: in an object, members are put into another
order, one is added, one gets the second name of its field, or an empty list is dropped. The object may be
the whole document or stand anywhere inside of it; its place says which members are recognised. -/
inductive Change : Place → Json → Json → Prop
  | reorder (p : Place) {members members' : List (String × Json)} (h : members.Perm members') :
    Change p (.obj members) (.obj members')
  | add (p : Place) (before after : List (String × Json)) (m : String × Json)
    (h : ∀ e ∈ p.layout (before ++ after), m.1 ∉ e.1.names) :
    Change p (.obj (before ++ after)) (.obj (before ++ m :: after))
  | rename (p : Place) (before after : List (String × Json)) {e : Field × Place} {other : String} {v : Json}
    (he : e ∈ p.layout (before ++ (e.1.wire, v) :: after)) (h : e.1.other = some other) :
    Change p (.obj (before ++ (e.1.wire, v) :: after)) (.obj (before ++ (other, v) :: after))
  | drop (p : Place) (before after : List (String × Json)) {f : Field} {q : Place} {key : String}
    (he : (f, .list q) ∈ p.layout (before ++ (key, .arr []) :: after)) (hkey : key ∈ f.names) :
    Change p (.obj (before ++ (key, .arr []) :: after)) (.obj (before ++ after))
  | member (p : Place) (before after : List (String × Json)) {key : String} {v v' : Json}
    (h : Change (p.member (before ++ (key, v) :: after) key) v v') :
    Change p (.obj (before ++ (key, v) :: after)) (.obj (before ++ (key, v') :: after))
  | item (p : Place) (before after : List Json) {v v' : Json} (h : Change p.item v v') :
    Change p (.arr (before ++ v :: after)) (.arr (before ++ v' :: after))

/-- Every object gives each of its known fields at most once. -/
inductive GivenOnce : Place → Json → Prop
  | atom {p : Place} {j : Json} (harr : ∀ items, j ≠ .arr items) (hobj : ∀ members, j ≠ .obj members) :
    GivenOnce p j
  | arr {p : Place} {items : List Json} (h : ∀ j ∈ items, GivenOnce p.item j) : GivenOnce p (.arr items)
  | obj {p : Place} {members : List (String × Json)}
    (hfields : ∀ e ∈ p.layout members, (e.1.values members).length ≤ 1)
    (hmembers : ∀ m ∈ members, GivenOnce (p.member members m.1) m.2) : GivenOnce p (.obj members)

/-- No object repeats a key, and none has both names of one of its fields. -/
inductive Unambiguous : Place → Json → Prop
  | atom {p : Place} {j : Json} (harr : ∀ items, j ≠ .arr items) (hobj : ∀ members, j ≠ .obj members) :
    Unambiguous p j
  | arr {p : Place} {items : List Json} (h : ∀ j ∈ items, Unambiguous p.item j) : Unambiguous p (.arr items)
  | obj {p : Place} {members : List (String × Json)} (hkeys : (members.map Prod.fst).Nodup)
    (hnames : ∀ e ∈ p.layout members, ∀ other, e.1.other = some other →
      ¬ (e.1.wire ∈ members.map Prod.fst ∧ other ∈ members.map Prod.fst))
    (hmembers : ∀ m ∈ members, Unambiguous (p.member members m.1) m.2) : Unambiguous p (.obj members)

theorem Unambiguous.givenOnce {p : Place} {j : Json} (h : Unambiguous p j) : GivenOnce p j := by
  induction h with
  | atom harr hobj => exact .atom harr hobj
  | arr _ ih => exact .arr ih
  | obj hkeys hnames _ ih =>
    exact .obj (fun e he => Field.length_values_le_one hkeys (hnames e he)) ih

theorem Unambiguous.str (p : Place) (s : String) : Unambiguous p (.str s) := .atom (by simp) (by simp)

theorem givenOnce_plain (j : Json) : GivenOnce .plain j := by
  induction j using Json.induction with
  | obj members ih => exact .obj (by simp [Place.layout]) ih
  | arr items ih => exact .arr ih
  | _ => exact .atom (by simp) (by simp)

section
variable {p : Place} {members : List (String × Json)} {e : Field × Place} {key : String}

theorem givenOnce_obj : GivenOnce p (.obj members) ↔
    (∀ e ∈ p.layout members, (e.1.values members).length ≤ 1) ∧
      ∀ m ∈ members, GivenOnce (p.member members m.1) m.2 := by
  refine ⟨fun h => ?_, fun h => .obj h.1 h.2⟩
  cases h with
  | atom _ hobj => exact absurd rfl (hobj members)
  | obj hfields hmembers => exact ⟨hfields, hmembers⟩

theorem givenOnce_arr {items : List Json} :
    GivenOnce p (.arr items) ↔ ∀ j ∈ items, GivenOnce p.item j := by
  refine ⟨fun h => ?_, .arr⟩
  cases h with
  | atom harr => exact absurd rfl (harr items)
  | arr h => exact h

theorem layout_distinct (kind : Kind) :
    ∀ e ∈ layout kind, ∀ e' ∈ layout kind, ∀ key ∈ e.1.names, key ∈ e'.1.names → e = e' := by
  cases kind <;> decide

theorem Place.layout_distinct (p : Place) (members : List (String × Json)) :
    ∀ e ∈ p.layout members, ∀ e' ∈ p.layout members, ∀ key ∈ e.1.names, key ∈ e'.1.names → e = e' := by
  cases p with
  | plain => simp [Place.layout]
  | list p => simp [Place.layout]
  | node =>
    simp only [Place.layout]
    split
    · exact Load.layout_distinct _
    · decide
  | entry =>
    simp only [Place.layout]
    decide
  | identifier => exact Load.layout_distinct .identifier
  | string => exact Load.layout_distinct .string
  | destructure => exact Load.layout_distinct .destructure
  | parameter => exact Load.layout_distinct .arg

theorem Place.member_eq (he : e ∈ p.layout members) (hkey : key ∈ e.1.names) :
    p.member members key = e.2 := by
  unfold Place.member
  cases hfind : (p.layout members).find? fun e => key ∈ e.1.names with
  | none => simpa [hkey] using List.find?_eq_none.1 hfind e he
  | some e' =>
    have hkey' : key ∈ e'.1.names := by simpa using List.find?_some hfind
    rw [p.layout_distinct members e he e' (List.mem_of_find?_eq_some hfind) key hkey hkey']

theorem Place.member_eq_plain (h : ∀ e ∈ p.layout members, key ∉ e.1.names) :
    p.member members key = .plain := by
  have hfind : (p.layout members).find? (fun e => key ∈ e.1.names) = none := by simpa using h
  rw [Place.member, hfind]

end

/-! ### What a change keeps -/

section
variable [Json.Edition] {p : Place} {members members' before after : List (String × Json)}
  {e : Field × Place} {key key' : String} {v v' : Json}

/-- Two objects have the same in a field, and the second gives it at most once. -/
structure Kept (e : Field × Place) (members members' : List (String × Json)) : Prop where
  agree : Agree e members members'
  once : (e.1.values members').length ≤ 1

theorem agree_of_eq (h : e.2.given? e.1 members = e.2.given? e.1 members') : Agree e members members' := by
  rw [Agree, h]
  cases e.2.given? e.1 members' with
  | none => exact .none
  | some v => exact .some (same_refl e.2 v)

section
variable (honce : (e.1.values members).length ≤ 1)
include honce

theorem kept_of_eq (h : e.1.values members' = e.1.values members) : Kept e members members' := by
  have honce' : (e.1.values members').length ≤ 1 := h ▸ honce
  refine ⟨agree_of_eq ?_, honce'⟩
  rw [Place.given?, Place.given?, Field.given?_eq_head? honce, Field.given?_eq_head? honce', h]

theorem kept_of_perm (h : members.Perm members') : Kept e members members' := by
  refine kept_of_eq honce ?_
  have hvalues : (e.1.values members).Perm (e.1.values members') := (h.filter _).map _
  rcases hv : e.1.values members with _ | ⟨v, _ | ⟨w, rest⟩⟩
  · exact List.nil_perm.1 (hv ▸ hvalues)
  · exact (List.singleton_perm.1 (hv ▸ hvalues)).symm
  · simp [hv] at honce

end

section
variable (honce : (e.1.values (before ++ (key, v) :: after)).length ≤ 1)
include honce

theorem kept_replaced (hnames : key ∈ e.1.names ↔ key' ∈ e.1.names)
    (h : key ∈ e.1.names → Same e.2 v v') :
    Kept e (before ++ (key, v) :: after) (before ++ (key', v') :: after) := by
  by_cases hkey : key ∈ e.1.names
  · have hkey' := hnames.1 hkey
    obtain ⟨hbefore, hafter⟩ := Field.values_only hkey honce
    have hvalue {k : String} (w : Json) (hk : k ∈ e.1.names) :
        e.1.values (before ++ (k, w) :: after) = [w] := by
      rw [Field.values_append, Field.values_cons, if_pos hk, hbefore, hafter]
      rfl
    have honce' : (e.1.values (before ++ (key', v') :: after)).length ≤ 1 := by
      rw [hvalue v' hkey']
      rfl
    refine ⟨?_, honce'⟩
    rw [Agree, Place.given?, Place.given?, Field.given?_eq_head? honce, Field.given?_eq_head? honce',
      hvalue v hkey, hvalue v' hkey']
    exact .some (h hkey)
  · refine kept_of_eq honce ?_
    rw [Field.values_skip hkey, Field.values_skip fun hkey' => hkey (hnames.2 hkey')]

theorem kept_dropped (hkey : key ∈ e.1.names) (h : e.2.absent? = some v) :
    Kept e (before ++ (key, v) :: after) (before ++ after) := by
  obtain ⟨hbefore, hafter⟩ := Field.values_only hkey honce
  have hnil : e.1.values (before ++ after) = [] := by rw [Field.values_append, hbefore, hafter]; rfl
  have honce' : (e.1.values (before ++ after)).length ≤ 1 := by rw [hnil]; exact Nat.zero_le 1
  refine ⟨agree_of_eq ?_, honce'⟩
  rw [Place.given?, Place.given?, Field.given?_eq_head? honce, Field.given?_eq_head? honce', hnil, h,
    Field.values_append, Field.values_cons, if_pos hkey, hbefore]
  rfl

end

theorem kept_obj (hfields : ∀ e ∈ p.layout members, Kept e members members')
    (hmembers : ∀ m ∈ members', GivenOnce (p.member members m.1) m.2) :
    Same p (.obj members) (.obj members') ∧ GivenOnce p (.obj members') := by
  have hagree : ∀ e ∈ p.layout members, Agree e members members' := fun e he => (hfields e he).agree
  have hlayout : p.layout members' = p.layout members := layout_eq hagree
  refine ⟨same_obj hagree, .obj (fun e he => (hfields e (hlayout ▸ he)).once) fun m hm => ?_⟩
  have hplace : p.member members' m.1 = p.member members m.1 := by rw [Place.member, hlayout, Place.member]
  exact hplace ▸ hmembers m hm

/-- A change keeps what is read, and every field is still given at most once. -/
theorem Change.keeps {p : Place} {j j' : Json} (h : Change p j j') (honce : GivenOnce p j) :
    Same p j j' ∧ GivenOnce p j' := by
  -- No two fields share a name, so a change of one member touches one field at most.
  induction h with
  | reorder p hperm =>
    obtain ⟨hfields, hmembers⟩ := givenOnce_obj.1 honce
    exact kept_obj (fun e he => kept_of_perm (hfields e he) hperm)
      fun m hm => hmembers m (hperm.mem_iff.2 hm)
  | add p before after m hkey =>
    obtain ⟨hfields, hmembers⟩ := givenOnce_obj.1 honce
    have hm : GivenOnce (p.member (before ++ after) m.1) m.2 := by
      rw [Place.member_eq_plain hkey]
      exact givenOnce_plain m.2
    refine kept_obj (fun e he => kept_of_eq (hfields e he) (Field.values_skip (hkey e he))) ?_
    simp only [List.forall_mem_append, List.forall_mem_cons] at hmembers ⊢
    exact ⟨hmembers.1, hm, hmembers.2⟩
  | @rename p before after e other v he hother =>
    obtain ⟨hfields, hmembers⟩ := givenOnce_obj.1 honce
    have hwire := e.1.wire_mem_names
    have hother := Field.other_mem_names hother
    refine kept_obj (fun e' he' => kept_replaced (hfields e' he') ?_ fun _ => same_refl e'.2 v) ?_
    · constructor
      · intro hkey
        rwa [← p.layout_distinct _ e he e' he' _ hwire hkey]
      · intro hkey
        rwa [← p.layout_distinct _ e he e' he' _ hother hkey]
    · simp only [List.forall_mem_append, List.forall_mem_cons, Place.member_eq he hwire] at hmembers
      simp only [List.forall_mem_append, List.forall_mem_cons, Place.member_eq he hother]
      exact hmembers
  | @drop p before after f q key he hkey =>
    obtain ⟨hfields, hmembers⟩ := givenOnce_obj.1 honce
    refine kept_obj (fun e' he' => ?_) ?_
    · by_cases hkey' : key ∈ e'.1.names
      · obtain rfl := p.layout_distinct _ _ he e' he' key hkey hkey'
        exact kept_dropped (hfields _ he) hkey rfl
      · exact kept_of_eq (hfields e' he') (Field.values_skip hkey').symm
    · simp only [List.forall_mem_append, List.forall_mem_cons] at hmembers ⊢
      exact ⟨hmembers.1, hmembers.2.2⟩
  | @member p before after key v v' hv ih =>
    obtain ⟨hfields, hmembers⟩ := givenOnce_obj.1 honce
    obtain ⟨hsame, hv'⟩ := ih (hmembers (key, v) (by simp))
    refine kept_obj (fun e he => kept_replaced (hfields e he) Iff.rfl fun hkey => ?_) ?_
    · rwa [Place.member_eq he hkey] at hsame
    · simp only [List.forall_mem_append, List.forall_mem_cons] at hmembers ⊢
      exact ⟨hmembers.1, hv', hmembers.2.2⟩
  | @item p before after v v' hv ih =>
    have hitems := givenOnce_arr.1 honce
    obtain ⟨hsame, hv'⟩ := ih (hitems v (by simp))
    have hrefl (items : List Json) : List.Forall₂ (Same p.item) items items :=
      List.forall₂_same.2 fun j _ => same_refl p.item j
    refine ⟨same_arr (List.rel_append (hrefl before) (.cons hsame (hrefl after))), .arr ?_⟩
    simp only [List.forall_mem_append, List.forall_mem_cons] at hitems ⊢
    exact ⟨hitems.1, hv', hitems.2.2⟩

theorem sameOutcome_ofJson {j j' : Json} (h : Same (.list .node) j j') :
    SameOutcome (Program.ofJson j) (Program.ofJson j') := by
  have harray (j : Json) : Program.ofJson j = array nodes [] j := by cases j <;> rfl
  rw [harray, harray]
  exact sameRead_array node (fun _ _ => by rw [nodes]) (fun _ _ _ _ => by rw [nodes]) h (fun _ _ h => h)
    [] []

theorem changes_keep {j j' : Json} (h : Relation.ReflTransGen (Change (.list .node)) j j')
    (honce : GivenOnce (.list .node) j) :
    SameOutcome (Program.ofJson j) (Program.ofJson j') ∧ GivenOnce (.list .node) j' := by
  induction h with
  | refl => exact ⟨rfl, honce⟩
  | tail _ hlast ih =>
    obtain ⟨hsame, honce'⟩ := hlast.keeps ih.2
    exact ⟨ih.1.trans (sameOutcome_ofJson hsame), honce'⟩

end
end Load

namespace Program

open Load

/-- Two texts are read as documents of which the second comes from the first by changes, at any number of
places, that keep the recognised members. Then the second holds a program if the first does, and the same
one. -/
theorem load_iff_of_changes [Json.Edition] {text text' : String} {j j' : Json} (hread : Json.read? text = some j)
    (hread' : Json.read? text' = some j') (honce : GivenOnce (.list .node) j)
    (hchanges : Relation.ReflTransGen (Change (.list .node)) j j') (program : Program) :
    load text = .ok program ↔ load text' = .ok program := by
  simp only [load, hread, hread']
  exact (changes_keep hchanges honce).1.ok_iff program

theorem load_written [Json.Edition] {program : Program} {js : List Json} (hjs : Node.listToJson? program = some js)
    (hfit : Json.allFit (.arr js)) (hd : Node.listNesting program ≤ Json.depthLimit)
    (hf : ∀ n ∈ Node.listSubnodes program, n.isInfinite = false) :
    Json.read? (Json.render ⟨none, Literal.unicode⟩ (.arr js)) = some (.arr js) ∧
      load (Json.render ⟨none, Literal.unicode⟩ (.arr js)) = .ok program := by
  have hdump : program.dump none = .ok _ := dump_eq_ok_iff.2 ⟨js, hjs, rfl⟩
  have hwrites := Node.forall₂_writes (fun n _ => Node.writes_toJson? n) hjs
  have htaken : ∀ n ∈ Node.listSubnodes program, n.isTaken := by
    rwa [Node.fits_written hwrites, List.all_eq_true] at hfit
  refine ⟨?_, load_finite hdump htaken hd hf⟩
  rw [Json.read?, Json.readWithin_render escaping_unicode (Node.readable_written hwrites hd), if_pos hfit]

def emptyArray : Node := .assignment (.identifier "a") (.array [])

def emptyArrayTree : Json :=
  .obj [("type", .str "assignment"),
    ("assignTo", .obj [("type", .str "identifier"), ("value", .str "a")]),
    ("assignValue", .obj [("type", .str "array"), ("items", .arr [])])]

def rewordedTree : Json :=
  .obj [("assign_value", .obj [("type", .str "array"), ("note", .null)]),
    ("assignTo", .obj [("type", .str "identifier"), ("name", .str "a")]), ("type", .str "assignment")]

theorem load_iff_of_changes_reworded :
    Relation.ReflTransGen (Change (.list .node)) (.arr [emptyArrayTree]) (.arr [rewordedTree]) ∧
    load (Json.render ⟨none, Literal.unicode⟩ (.arr [emptyArrayTree])) = .ok [emptyArray] ∧
    load (Json.render ⟨none, Literal.unicode⟩ (.arr [rewordedTree])) = .ok [emptyArray] := by
  obtain ⟨hread, hload⟩ : _ ∧ load _ = .ok [emptyArray] :=
    load_written rfl (by decide) (by decide) (by decide)
  have hread' : Json.read? (Json.render ⟨none, Literal.unicode⟩ (.arr [rewordedTree])) =
      some (.arr [rewordedTree]) := by
    refine (Json.readWithin_render escaping_unicode (.arr (List.forall_mem_singleton.2 (.obj ?_)))).trans
      (if_pos (by decide))
    simp only [List.forall_mem_cons]
    refine ⟨.obj ?_, .obj ?_, .str _ _, by simp⟩
    · simp only [List.forall_mem_cons]
      exact ⟨.str _ _, .null _, by simp⟩
    · simp only [List.forall_mem_cons]
      exact ⟨.str _ _, .str _ _, by simp⟩
  have hclear : Unambiguous (.list .node) (.arr [emptyArrayTree]) := by
    refine .arr (List.forall_mem_singleton.2 (.obj (by decide) (by decide) ?_))
    simp only [List.forall_mem_cons]
    refine ⟨.str _ _, .obj (by decide) (by decide) ?_, .obj (by decide) (by decide) ?_, by simp⟩
    · simp only [List.forall_mem_cons]
      exact ⟨.str _ _, .str _ _, by simp⟩
    · simp only [List.forall_mem_cons]
      exact ⟨.str _ _, .arr (by simp), by simp⟩
  have hchanges : Relation.ReflTransGen (Change (.list .node)) (.arr [emptyArrayTree])
      (.arr [rewordedTree]) := by
    refine .head (.item _ [] [] (.rename _ [_, _] [] (e := (.assignValue, .node)) (by decide) rfl)) ?_
    refine .head (.item _ [] [] (.member _ [_] [_]
      (.rename _ [_] [] (e := (.name, .plain)) (by decide) rfl))) ?_
    refine .head (.item _ [] [] (.member _ [_, _] []
      (.drop _ [_] [] (f := .items) (q := .node) (by decide) (by decide)))) ?_
    refine .head (.item _ [] [] (.member _ [_, _] [] (.add _ [_] [] ("note", .null) (by decide)))) ?_
    exact .single (.item _ [] [] (.reorder _ (List.reverse_perm _).symm))
  exact ⟨hchanges, hload, (load_iff_of_changes hread hread' hclear.givenOnce hchanges _).1 hload⟩

end Program

/-! ### An added member that is too deep for the reader -/

namespace Json

def nested : Nat → Json
  | 0 => .arr []
  | n + 1 => .arr [nested n]

theorem write_nested (plain : Literal.Style) (n d : Nat) :
    ∃ rest, write ⟨none, plain⟩ d (nested n) = List.replicate (n + 1) '[' ++ rest := by
  induction n generalizing d with
  | zero => exact ⟨[']'], rfl⟩
  | succ n ih =>
    obtain ⟨rest, hrest⟩ := ih (d + 1)
    refine ⟨rest ++ [']'], ?_⟩
    rw [nested, write, hrest, writeItems]
    simp [Layout.newline, List.replicate_succ]

theorem readSequence_none {α : Type} {item : List Char → Option (α × List Char)} {close : Char}
    {cs : List Char} (h : item cs = none) : readSequence item close cs = none := by
  rw [readSequence.eq_def, h]

section
variable [Edition]

theorem readValue_arr_none {n : Nat} {c : Char} {cs : List Char} (hblank : isBlank c = false)
    (hclose : c ≠ ']') (h : readValue n (c :: cs) = none) : readValue (n + 1) ('[' :: c :: cs) = none := by
  rw [readValue.eq_def, skipBlanks_cons (by decide)]
  simp [skipBlanks_cons hblank, hclose, readSequence_none h]

theorem readValue_obj_none {n : Nat} {plain : Literal.Style} (hp : plain.Escaping) (key : String)
    {cs : List Char} (h : readValue n cs = none) :
    readValue (n + 1) ('\x7b' :: (Literal.write plain key.toList ++ ':' :: cs)) = none := by
  have htext : Literal.write plain key.toList ++ ':' :: cs =
      '"' :: (key.toList.flatMap (Literal.writeChar plain) ++ '"' :: ':' :: cs) := by
    simp [Literal.write]
  have hmember : readMember (readValue n) (Literal.write plain key.toList ++ ':' :: cs) = none := by
    rw [htext, readMember, skipBlanks_cons (by decide)]
    simp [readString_write hp, skipBlanks_cons, isBlank, h]
  rw [htext] at hmember ⊢
  rw [readValue.eq_def, skipBlanks_cons (by decide)]
  simp [skipBlanks_cons, isBlank, readSequence_none hmember]

theorem readValue_brackets (n : Nat) (rest : List Char) :
    readValue n (List.replicate (n + 2) '[' ++ rest) = none := by
  induction n with
  | zero => simp [readValue.eq_def, List.replicate_succ, skipBlanks_cons, isBlank]
  | succ n ih => exact readValue_arr_none (by decide) (by decide) ih

end
end Json

namespace Program

open Load

def truth : List (String × Json) := [("type", .str "boolean"), ("value", .bool true)]

def deepTruth : List (String × Json) := ("x", Json.nested 250) :: truth

theorem read?_deepTruth [Json.Edition] :
    Json.read? (Json.render ⟨none, Literal.unicode⟩ (.arr [.obj deepTruth])) = none := by
  obtain ⟨brackets, hbrackets⟩ := Json.write_nested Literal.unicode 250 2
  have hsplit : List.replicate 251 '[' = List.replicate 200 '[' ++ List.replicate 51 '[' := by
    rw [List.replicate_append_replicate]
  have htext : ∃ rest, Json.write ⟨none, Literal.unicode⟩ 0 (.arr [.obj deepTruth]) =
      '[' :: '\x7b' :: (Literal.write Literal.unicode "x".toList ++ ':' ::
        (List.replicate 200 '[' ++ rest)) := by
    simp only [deepTruth, Json.write, Json.writeItems, Json.Layout.newline, Json.Layout.colon, hbrackets,
      hsplit, Option.isSome_none, Bool.false_eq_true, if_false, List.append_assoc, List.cons_append,
      List.nil_append, List.append_nil]
    exact ⟨_, rfl⟩
  obtain ⟨rest, htext⟩ := htext
  have hdeep : Json.readValue Json.depthLimit
      (Json.write ⟨none, Literal.unicode⟩ 0 (.arr [.obj deepTruth])) = none := by
    rw [htext]
    exact Json.readValue_arr_none (by decide) (by decide)
      (Json.readValue_obj_none escaping_unicode "x" (Json.readValue_brackets 198 rest))
  rw [Json.read?, Json.readWithin, Json.render, String.toList_ofList, hdeep]

theorem deep_member_refused :
    Unambiguous (.list .node) (.arr [.obj truth]) ∧
    Change (.list .node) (.arr [.obj truth]) (.arr [.obj deepTruth]) ∧
    load (Json.render ⟨none, Literal.unicode⟩ (.arr [.obj truth])) = .ok [.boolean true] ∧
    load (Json.render ⟨none, Literal.unicode⟩ (.arr [.obj deepTruth])) = .error [⟨.jsonInvalid, []⟩] := by
  have hload : _ ∧ load _ = .ok [.boolean true] := load_written rfl (by decide) (by decide) (by decide)
  refine ⟨?_, ?_, hload.2, ?_⟩
  · refine .arr (List.forall_mem_singleton.2 (.obj (by decide) (by decide) ?_))
    simp only [truth, List.forall_mem_cons]
    exact ⟨.str _ _, .atom (by simp) (by simp), by simp⟩
  · exact .item _ [] [] (.add _ [] truth ("x", Json.nested 250) (by decide))
  · rw [load, read?_deepTruth]
    rfl

end Program
end AwaitScript
