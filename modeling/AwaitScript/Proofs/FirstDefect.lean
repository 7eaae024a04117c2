import AwaitScript.Proofs.SourceGrammar

/-! Which fault of a text is reported. A text that cannot be derived is a syntax error, whatever else is
wrong with it. In a text that can be, literals and targets of assignments are checked from left to right,
each subtree after those in it, and the first check that fails is the one reported. -/
namespace AwaitScript.Grammar
variable {s : Symbol}

/-- A subtree of a derivation, and how many terminals come before it. -/
structure Vertex where
  symbol : Symbol
  tree : Derivation symbol
  start : Nat

namespace Derivation

def postorder {s : Symbol} (start : Nat) : Derivation s → List Vertex
  | statement first rest =>
    first.postorder start ++ rest.postorder (start + first.yield.length) ++
      [⟨_, .statement first rest, start⟩]
  | expression e => e.postorder start ++ [⟨_, .expression e, start⟩]
  | assignment target value =>
    target.postorder start ++ value.postorder (start + target.yield.length + 1) ++
      [⟨_, .assignment target value, start⟩]
  | call c => c.postorder start ++ [⟨_, .call c, start⟩]
  | atom a => a.postorder start ++ [⟨_, .atom a, start⟩]
  | invocation callee arguments =>
    callee.postorder start ++ arguments.postorder (start + callee.yield.length + 1) ++
      [⟨_, .invocation callee arguments, start⟩]
  | function parameters body =>
    parameters.postorder (start + 1) ++ body.postorder (start + parameters.yield.length + 4) ++
      [⟨_, .function parameters body, start⟩]
  | object entries => entries.postorder (start + 1) ++ [⟨_, .object entries, start⟩]
  | array items => items.postorder (start + 1) ++ [⟨_, .array items, start⟩]
  | default name value => value.postorder (start + 2) ++ [⟨_, .default name value, start⟩]
  | pair key value => value.postorder (start + 2) ++ [⟨_, .pair key value, start⟩]
  | firstItem first rest =>
    first.postorder start ++ rest.postorder (start + first.yield.length) ++
      [⟨_, .firstItem first rest, start⟩]
  | next item rest =>
    item.postorder (start + 1) ++ rest.postorder (start + item.yield.length + 1) ++
      [⟨_, .next item rest, start⟩]
  | d => [⟨_, d, start⟩]

def name? {s : Symbol} : Derivation s → Option String
  | identifier text => some text
  | atom a => a.name?
  | call c => c.name?
  | _ => none

def moreMembers : Derivation (.more s) → List (Derivation s)
  | noMore | lastComma => []
  | next item rest => item :: rest.moreMembers

def members : Derivation (.list s) → List (Derivation s)
  | noItem => []
  | firstItem first rest => first :: rest.moreMembers

def repeatsKey : Derivation .entry → Bool
  | shorthand _ => true
  | pair key value => value.name? = some key

/-- Whether a target is a name, an array of names or an object of entries that repeat their key. -/
def isTarget : Derivation .call → Bool
  | atom (.identifier _) => true
  | atom (.array items) => items.members.all fun e => e.name?.isSome
  | atom (.object entries) => entries.members.all repeatsKey
  | _ => false

def kind : Derivation .call → Kind
  | invocation _ _ => .invocation
  | atom (.function _ _) => .function
  | atom (.object _) => .object
  | atom (.array _) => .array
  | atom (.identifier _) => .identifier
  | atom (.string _) => .string
  | atom (.float _ _) => .float
  | atom (.int _) => .integer
  | atom (.boolean _) => .boolean

end Derivation

def Terminal.defect? : Terminal → Option Surface.Defect
  | .string text =>
    match Literal.read text.toList with
    | .ok _ => none
    | .error fault => some (.literal text fault)
  | .int digits => if 4300 < digits.length then some .longInteger else none
  | _ => none

namespace Vertex

/-- What is wrong with a subtree itself, as opposed to those in it. -/
def defect? : Vertex → Option Surface.Defect
  | ⟨_, .string text, _⟩ => Terminal.defect? (.string text)
  | ⟨_, .imports _ path, _⟩ => Terminal.defect? (.string path)
  | ⟨_, .int digits, _⟩ => Terminal.defect? (.int digits)
  | ⟨_, .assignment target _, _⟩ => if target.isTarget then none else some (.target target.kind)
  | _ => none

def place : Vertex → Nat
  | ⟨_, .imports _ _, start⟩ => start + 3
  | v => v.start

/-- The error of a subtree itself. A string is shown where it stands. -/
def error? (source : String) (v : Vertex) : Option ParseError :=
  v.defect?.map fun
    | .literal text fault =>
      let lexeme? := (Lexeme.scan source.toList)[v.place]?
      .invalidString text fault (.ofOffset source.toList ((lexeme?.map Lexeme.offset).getD 0))
    | .longInteger => .longInteger
    | .target kind => .invalidTarget kind

end Vertex

/-! ### Targets -/

section Targets
open Surface

theorem build_atom_identifier {a : Derivation .atom} {name : String} :
    a.build = .ok (.identifier name) ↔ a.name? = some name := by
  cases a with
  | function parameters body =>
    simp only [Derivation.build, Derivation.name?, bind_eq_ok_iff]
    simp [pure, Except.pure]
  | object entries => simp [Derivation.build, Derivation.name?, map_eq_ok_iff]
  | array items => simp [Derivation.build, Derivation.name?, map_eq_ok_iff]
  | identifier text => simp [Derivation.build, Derivation.name?]
  | string text => simp [Derivation.build, Derivation.name?, map_eq_ok_iff]
  | float whole fraction => simp [Derivation.build, Derivation.name?, readFloat]
  | int digits =>
    simp only [Derivation.build, Derivation.name?, readInteger]
    split <;> simp
  | boolean value => simp [Derivation.build, Derivation.name?]

theorem build_call_identifier {c : Derivation .call} {name : String} :
    c.build = .ok (.identifier name) ↔ c.name? = some name := by
  cases c with
  | atom a => exact build_atom_identifier
  | invocation callee arguments =>
    simp only [Derivation.build, Derivation.name?, bind_eq_ok_iff]
    simp [pure, Except.pure]

theorem assign_ne_identifier (target value : Node) (name : String) :
    assign target value ≠ .ok (.identifier name) := by
  unfold assign
  split
  · simp
  · split <;> simp

theorem build_expression_identifier {e : Derivation .expression} {name : String} :
    e.build = .ok (.identifier name) ↔ e.name? = some name := by
  cases e with
  | call c => exact build_call_identifier
  | assignment target value =>
    simp only [Derivation.build, Derivation.name?, bind_eq_ok_iff]
    simp [assign_ne_identifier]

theorem moreMembers_build {rest : Derivation (.more s)} {values : List s.Value}
    (h : rest.build = .ok values) :
    List.Forall₂ (fun d v => d.build = .ok v) rest.moreMembers values := by
  fun_induction Derivation.moreMembers rest generalizing values with
  | case1 => cases h; exact .nil
  | case2 => cases h; exact .nil
  | case3 item rest ih =>
    rw [Derivation.build] at h
    obtain ⟨v, hv, h⟩ := bind_eq_ok_iff.1 h
    obtain ⟨vs, hvs, h⟩ := bind_eq_ok_iff.1 h
    cases h
    exact .cons hv (ih hvs)

theorem members_build {items : Derivation (.list s)} {values : List s.Value}
    (h : items.build = .ok values) :
    List.Forall₂ (fun d v => d.build = .ok v) items.members values := by
  cases items with
  | noItem => cases h; exact .nil
  | firstItem first rest =>
    rw [Derivation.build] at h
    obtain ⟨v, hv, h⟩ := bind_eq_ok_iff.1 h
    obtain ⟨vs, hvs, h⟩ := bind_eq_ok_iff.1 h
    cases h
    exact .cons hv (moreMembers_build hvs)

theorem isSome_mapM {α β : Type} {p : α → Bool} {f : β → Option String} {as : List α} {bs : List β}
    (h : List.Forall₂ (fun a b => (f b).isSome = p a) as bs) : (bs.mapM f).isSome = as.all p := by
  induction h with
  | nil => rfl
  | cons hab _ ih =>
    rename_i a b as bs _
    rw [List.mapM_cons, List.all_cons, ← hab, ← ih]
    cases f b with
    | none => rfl
    | some name => cases bs.mapM f <;> rfl

theorem isSome_itemName? {e : Derivation .expression} {n : Node} (h : e.build = .ok n) :
    (itemName? n).isSome = e.name?.isSome := by
  cases hn : e.name? with
  | some name =>
    have := build_expression_identifier.2 hn
    rw [h] at this
    cases this
    rfl
  | none =>
    cases n with
    | identifier name =>
      rw [build_expression_identifier.1 h] at hn
      cases hn
    | _ => rfl

theorem isSome_entryName? {e : Derivation .entry} {n : Node × Node} (h : e.build = .ok n) :
    (entryName? n).isSome = e.repeatsKey := by
  cases e with
  | shorthand key =>
    cases h
    simp [entryName?, Derivation.repeatsKey]
  | pair key value =>
    obtain ⟨v, hv, rfl⟩ := map_eq_ok_iff.1 h
    rw [Derivation.repeatsKey]
    cases v with
    | identifier name =>
      rw [build_expression_identifier.1 hv, entryName?]
      by_cases hk : key = name
      · simp [hk]
      · simp [hk, Ne.symm hk]
    | _ =>
      simp only [entryName?]
      have hn : value.name? ≠ some key := fun hn => by
        have := build_expression_identifier.2 hn
        rw [hv] at this
        cases this
      simp [hn]

theorem kind_build {target : Derivation .call} {n : Node} (h : target.build = .ok n) :
    n.kind = target.kind := by
  cases target with
  | invocation callee arguments =>
    simp only [Derivation.build, bind_eq_ok_iff] at h
    obtain ⟨_, _, _, _, h⟩ := h
    cases h
    rfl
  | atom a =>
    cases a with
    | function parameters body =>
      simp only [Derivation.build, bind_eq_ok_iff] at h
      obtain ⟨_, _, _, _, h⟩ := h
      cases h
      rfl
    | object entries | array items | string text =>
      obtain ⟨_, _, rfl⟩ := map_eq_ok_iff.1 h
      rfl
    | int digits =>
      simp only [Derivation.build, readInteger] at h
      split at h
      · cases h
      · cases h
        rfl
    | identifier text | float whole fraction | boolean value =>
      cases h
      rfl

theorem isSome_pattern? {target : Derivation .call} {n : Node} (h : target.build = .ok n)
    (hn : n.kind ≠ .identifier) : (pattern? n).isSome = target.isTarget := by
  have hk := kind_build h
  rw [hk] at hn
  cases target with
  | invocation callee arguments => cases n <;> cases hk; rfl
  | atom a =>
    cases a with
    | identifier text => exact absurd rfl hn
    | array items =>
      obtain ⟨ns, hns, rfl⟩ := map_eq_ok_iff.1 h
      exact isSome_mapM ((members_build hns).imp fun e n => isSome_itemName?)
    | object entries =>
      obtain ⟨es, hes, rfl⟩ := map_eq_ok_iff.1 h
      exact isSome_mapM ((members_build hes).imp fun e n => isSome_entryName?)
    | _ => cases n <;> cases hk; rfl

def stop? {α : Type} : Except Defect α → Option Defect
  | .ok _ => none
  | .error defect => some defect

theorem stop?_assign {target : Derivation .call} {n : Node} (h : target.build = .ok n) (value : Node) :
    stop? (assign n value) = if target.isTarget then none else some (.target target.kind) := by
  have hk := kind_build h
  unfold assign
  split
  · cases target with
    | invocation callee arguments => cases hk
    | atom a => cases a <;> cases hk; rfl
  · next hn =>
    rw [← isSome_pattern? h (fun hi => by cases n <;> cases hi; exact hn _ rfl), ← hk]
    cases pattern? n with
    | none => rfl
    | some names => rfl

end Targets

/-! ### The order of the checks -/

section Order
open Surface

/-- Building stops at the first defect among the subtrees. -/
def StopsAt {α : Type} (vs : List Vertex) (x : Except Defect α) : Prop :=
  vs.findSome? Vertex.defect? = stop? x

variable {α β : Type} {us vs : List Vertex} {x : Except Defect α}

theorem StopsAt.bind {f : α → Except Defect β} (hx : StopsAt us x)
    (hf : ∀ a, x = .ok a → StopsAt vs (f a)) : StopsAt (us ++ vs) (x >>= f) := by
  unfold StopsAt at hx ⊢
  rw [List.findSome?_append, hx]
  cases x with
  | error defect => rfl
  | ok a => exact hf a rfl

theorem StopsAt.of_none {v : Vertex} (hv : v.defect? = none) (a : α) : StopsAt [v] (.ok a) := by
  simp [StopsAt, stop?, hv]

theorem StopsAt.both {v : Vertex} {y : Except Defect β} {γ : Type} {f : α → β → γ} (hx : StopsAt us x)
    (hy : StopsAt vs y) (hv : v.defect? = none) :
    StopsAt (us ++ vs ++ [v]) (do let a ← x; let b ← y; return f a b) := by
  rw [List.append_assoc]
  exact hx.bind fun a _ => hy.bind fun b _ => .of_none hv (f a b)

theorem StopsAt.map {v : Vertex} {f : α → β} (hx : StopsAt us x) (hv : v.defect? = none) :
    StopsAt (us ++ [v]) (x.map f) := by
  have h := hx.bind fun a _ => StopsAt.of_none hv (f a)
  cases x <;> exact h

theorem StopsAt.id {v : Vertex} (hx : StopsAt us x) (hv : v.defect? = none) : StopsAt (us ++ [v]) x := by
  have h := hx.map (f := fun a => a) hv
  cases x <;> exact h

theorem stopsAt_text {v : Vertex} {text : String} {f : Text → β}
    (hv : v.defect? = Terminal.defect? (.string text)) : StopsAt [v] ((readText text).map f) := by
  simp only [StopsAt, List.findSome?_singleton, hv, Terminal.defect?, readText]
  cases Literal.read text.toList <;> rfl

theorem stopsAt_build (d : Derivation s) (start : Nat) : StopsAt (d.postorder start) d.build := by
  induction d generalizing start with
  | noStatement => exact .of_none rfl _
  | statement first rest hf hr => exact (hf _).both (hr _) rfl
  | imports name path => exact stopsAt_text rfl
  | expression e he => exact (he _).id rfl
  | assignment target value ht hv =>
    rw [Derivation.postorder, List.append_assoc]
    refine (ht _).bind fun n hn => (hv _).bind fun m _ => ?_
    simp only [StopsAt, List.findSome?_singleton]
    exact (stop?_assign hn m).symm
  | call c hc => exact (hc _).id rfl
  | atom a ha => exact (ha _).id rfl
  | invocation callee arguments hc ha => exact (hc _).both (ha _) rfl
  | function parameters body hp hb => exact (hp _).both (hb _) rfl
  | object entries h => exact (h _).map rfl
  | array items h => exact (h _).map rfl
  | identifier text => exact .of_none rfl _
  | string text => exact stopsAt_text rfl
  | float whole fraction => exact .of_none rfl _
  | int digits =>
    simp only [StopsAt, Derivation.postorder, List.findSome?_singleton, Vertex.defect?, Terminal.defect?,
      Derivation.build, readInteger, integerLimit, String.length_toList]
    split <;> rfl
  | boolean value => exact .of_none rfl _
  | parameter name => exact .of_none rfl _
  | default name value h => exact (h _).map rfl
  | pair key value h => exact (h _).map rfl
  | shorthand key => exact .of_none rfl _
  | noItem => exact .of_none rfl _
  | firstItem first rest hf hr => exact (hf _).both (hr _) rfl
  | noMore => exact .of_none rfl _
  | lastComma => exact .of_none rfl _
  | next item rest hi hr => exact (hi _).both (hr _) rfl

end Order

/-! ### Literals -/

def Terminal.isLiteral : Terminal → Bool
  | .string _ | .int _ => true
  | _ => false

def Vertex.literal? : Vertex → Option (Terminal × Nat)
  | ⟨_, .string text, start⟩ => some (.string text, start)
  | ⟨_, .imports _ path, start⟩ => some (.string path, start + 3)
  | ⟨_, .int digits, start⟩ => some (.int digits, start)
  | _ => none

def literals (start : Nat) (ts : List Terminal) : List (Terminal × Nat) :=
  (ts.zipIdx start).filter fun p => p.1.isLiteral

theorem literals_append (start : Nat) (us ts : List Terminal) :
    literals start (us ++ ts) = literals start us ++ literals (start + us.length) ts := by
  simp [literals, List.zipIdx_append]

theorem literals_cons (start : Nat) (t : Terminal) (ts : List Terminal) :
    literals start (t :: ts) =
      if t.isLiteral then (t, start) :: literals (start + 1) ts else literals (start + 1) ts := by
  rw [literals, List.zipIdx_cons, List.filter_cons]
  rfl

@[simp] theorem literals_nil (start : Nat) : literals start [] = [] := rfl

theorem filterMap_concat {us : List Vertex} {v : Vertex} (hv : v.literal? = none) :
    (us ++ [v]).filterMap Vertex.literal? = us.filterMap Vertex.literal? := by
  simp [hv]

/-- The checks meet the literals in the order of the text. -/
theorem filterMap_literal? (d : Derivation s) (start : Nat) :
    (d.postorder start).filterMap Vertex.literal? = literals start d.yield := by
  induction d generalizing start with
  | statement first rest hf hr | firstItem first rest hf hr =>
    rw [Derivation.postorder, filterMap_concat rfl, List.filterMap_append, hf, hr, ← literals_append]
    rfl
  | expression e h | call e h | atom e h =>
    rw [Derivation.postorder, filterMap_concat rfl, h]
    rfl
  | assignment target value hf hr | invocation callee arguments hf hr =>
    rw [Derivation.postorder, filterMap_concat rfl, List.filterMap_append, hf, hr]
    simp [Derivation.yield, literals_append, literals_cons, Terminal.isLiteral]
  | function parameters body hf hr =>
    rw [Derivation.postorder, filterMap_concat rfl, List.filterMap_append, hf, hr]
    simp [Derivation.yield, literals_append, literals_cons, Terminal.isLiteral, Nat.add_right_comm _ 1]
  | next item rest hf hr =>
    rw [Derivation.postorder, filterMap_concat rfl, List.filterMap_append, hf, hr]
    simp [Derivation.yield, literals_append, literals_cons, Terminal.isLiteral, Nat.add_right_comm _ 1]
  | object entries h | array entries h | default name value h | pair name value h =>
    rw [Derivation.postorder, filterMap_concat rfl, h]
    simp [Derivation.yield, literals_append, literals_cons, Terminal.isLiteral]
  | _ => rfl

theorem plain_tokens_scanFrom {before ts : List Terminal} {sameLine : Bool} {text : List Char}
    (h : Lexes before sameLine text ts) (afterOperand : Bool) (offset : Nat) :
    (Lexeme.scanFrom afterOperand offset text).map (fun l => plain l.token) =
      ts.map fun t => plain t.token := by
  induction hn : text.length using Nat.strongRecOn generalizing
    text before sameLine ts afterOperand offset with
  | ind n ih =>
    subst hn
    cases text with
    | nil =>
      rw [lexes_nil_iff.1 h, Lexeme.scanFrom]
      rfl
    | cons c cs =>
      rw [Lexeme.scanFrom]
      by_cases hc : Token.isBlank c
      · rw [if_pos hc]
        exact ih _ (by simp) ((lexes_blank_iff hc).1 h) _ _ rfl
      · obtain ⟨t, ts, rfl, ht, -, h⟩ := (lexes_terminal_iff hc afterOperand).1 h
        have hlt : (Token.scan afterOperand c cs).2.length < (c :: cs).length :=
          Nat.lt_succ_of_le (Token.length_scan_le afterOperand c cs)
        rw [if_neg hc, List.map_cons, List.map_cons, ih _ hlt h _ _ rfl, ht]

theorem eq_string_of_plain {t : Terminal} {text : String} (h : plain t.token = .string text) :
    t = .string text := by
  cases t <;> cases h
  rfl

theorem defect?_of_literal? {v : Vertex} {t : Terminal} {i : Nat} (h : v.literal? = some (t, i)) :
    v.defect? = t.defect? ∧ v.place = i := by
  obtain ⟨symbol, tree, start⟩ := v
  cases tree <;> cases h <;> exact ⟨rfl, rfl⟩

theorem defect?_string {text text' : String} {fault : Literal.Fault}
    (h : Terminal.defect? (.string text') = some (.literal text fault)) :
    text' = text ∧ Literal.read text.toList = .error fault := by
  simp only [Terminal.defect?] at h
  split at h
  · cases h
  · next hr =>
    cases h
    exact ⟨rfl, hr⟩

theorem literal?_of_defect? {v : Vertex} {text : String} {fault : Literal.Fault}
    (h : v.defect? = some (.literal text fault)) :
    v.literal? = some (.string text, v.place) ∧ Literal.read text.toList = .error fault := by
  obtain ⟨symbol, tree, start⟩ := v
  cases tree with
  | string text' | imports name text' =>
    obtain ⟨rfl, hr⟩ := defect?_string h
    exact ⟨rfl, hr⟩
  | int digits =>
    simp only [Vertex.defect?, Terminal.defect?] at h
    split at h <;> cases h
  | assignment target value =>
    simp only [Vertex.defect?] at h
    split at h <;> cases h
  | _ => cases h

theorem isFaultyString_eq_false {l : Lexeme} {t : Terminal} (h : plain l.token = plain t.token)
    (ht : t.isLiteral → t.defect? = none) : Source.isFaultyString l = false := by
  unfold Source.isFaultyString
  split
  · next text hl =>
    rw [hl] at h
    obtain rfl := eq_string_of_plain h.symm
    have hd := ht rfl
    simp only [Terminal.defect?] at hd
    split at hd
    · next hr =>
      rw [hr]
      rfl
    · cases hd
  · rfl

/-- A defect of a string shows at the first string of the text that cannot be read. -/
theorem find?_isFaultyString {source : String} {d : Derivation .statements} (hl : Lexed source d.yield)
    {before after : List Vertex} {v : Vertex} (hd : d.postorder 0 = before ++ v :: after)
    (hb : ∀ u ∈ before, u.defect? = none) {text : String} {fault : Literal.Fault}
    (hv : v.defect? = some (.literal text fault)) :
    (Lexeme.scan source.toList).find? Source.isFaultyString = (Lexeme.scan source.toList)[v.place]? := by
  obtain ⟨hlit, hread⟩ := literal?_of_defect? hv
  -- the terminals in front of the string, whose literals have all been checked before it
  have hf := filterMap_literal? d 0
  rw [hd, List.filterMap_append, List.filterMap_cons_some hlit, eq_comm, literals,
    List.filter_eq_append_iff] at hf
  obtain ⟨l₁, l₂, hz, hl₁, hl₂⟩ := hf
  obtain ⟨l₃, l₄, rfl, hl₃, -, -⟩ := List.filter_eq_cons_iff.1 hl₂
  rw [← List.append_assoc, List.zipIdx_eq_append_iff] at hz
  obtain ⟨us, ts, hy, hu, ht⟩ := hz
  obtain ⟨t, ts, rfl, he, -⟩ := List.zipIdx_eq_cons_iff.1 ht.symm
  obtain ⟨rfl, hplace⟩ := Prod.mk.inj he
  have hgood : ∀ u ∈ us, u.isLiteral → u.defect? = none := by
    intro u hmem hlu
    obtain ⟨i, hi⟩ := List.mem_iff_getElem?.1 hmem
    have hi : (u, i) ∈ l₁ ++ l₃ := hu ▸ List.mem_zipIdx_iff_getElem?.2 hi
    obtain hi | hi := List.mem_append.1 hi
    · have hb' : (u, i) ∈ before.filterMap Vertex.literal? := hl₁ ▸ List.mem_filter.2 ⟨hi, hlu⟩
      obtain ⟨w, hw, hwu⟩ := List.mem_filterMap.1 hb'
      exact (defect?_of_literal? hwu).1.symm.trans (hb w hw)
    · exact absurd hlu (hl₃ _ hi)
  -- the lexemes, cut at the same place
  have ha := plain_tokens_scanFrom hl false 0
  rw [hy, List.map_append, List.map_cons, List.map_eq_append_iff] at ha
  obtain ⟨ls, ms, hs, hls, hms⟩ := ha
  obtain ⟨l, ms, rfl, hl, -⟩ := List.map_eq_cons_iff.1 hms
  have hlen : ls.length = v.place := by
    have := congrArg List.length hls
    simp only [List.length_map] at this
    omega
  have hnone : ls.find? Source.isFaultyString = none := by
    refine List.find?_eq_none.2 fun m hm => ?_
    have hp : plain m.token ∈ us.map fun u => plain u.token := hls ▸ List.mem_map_of_mem hm
    obtain ⟨u, hu, hp⟩ := List.mem_map.1 hp
    rw [isFaultyString_eq_false hp.symm (hgood u hu)]
    exact Bool.false_ne_true
  have hfaulty : Source.isFaultyString l = true := by
    have htoken : l.token = .string text := eq_of_plain hl Token.noConfusion Token.noConfusion
    rw [Source.isFaultyString, htoken]
    simp only [hread]
    rfl
  rw [Lexeme.scan, hs, ← hlen, List.getElem?_append_right le_rfl, Nat.sub_self, List.find?_append, hnone]
  simp [hfaulty]

/-! ### What is reported -/

def IsSyntaxError : ParseError → Prop
  | .unexpectedCharacter _ _ | .unexpectedToken _ _ | .unexpectedEnd _ => True
  | _ => False

theorem parse_not_derivable {source : String} (h : ¬ ∃ d : Derivation .statements, Lexed source d.yield) :
    ∃ e, Source.parse source = .error e ∧ IsSyntaxError e := by
  have hp : ¬ PassesSyntax (Source.parse source) := by
    rw [passesSyntax_parse_iff]
    rintro ⟨ss, hs⟩
    obtain ⟨d, hl, -⟩ := surface_eq_ok_iff.1 hs
    exact h ⟨d, hl⟩
  cases hs : Source.parse source with
  | ok program =>
    rw [hs] at hp
    exact absurd trivial hp
  | error e =>
    rw [hs] at hp
    exact ⟨e, rfl, by cases e <;> first | trivial | exact absurd trivial hp⟩

theorem parse_derivable {source : String} {d : Derivation .statements} (hl : Lexed source d.yield) :
    Source.parse source = d.build.mapError (Source.defectError source.toList (Lexeme.scan source.toList)) := by
  rw [Source.parse, surface_eq_ok_iff.2 ⟨d, hl, rfl⟩, build_eq]
  rfl

theorem defectError_of_error? {source : String} {d : Derivation .statements} (hl : Lexed source d.yield)
    {before after : List Vertex} {v : Vertex} (hd : d.postorder 0 = before ++ v :: after)
    (hb : ∀ u ∈ before, u.defect? = none) {defect : Surface.Defect} (hv : v.defect? = some defect) :
    v.error? source = some (Source.defectError source.toList (Lexeme.scan source.toList) defect) := by
  rw [Vertex.error?, hv]
  cases defect with
  | literal text fault =>
    simp only [Option.map_some, Source.defectError, find?_isFaultyString hl hd hb hv]
  | longInteger => rfl
  | target kind => rfl

theorem build_eq_error_iff {d : Derivation s} {defect : Surface.Defect} :
    d.build = .error defect ↔ (d.postorder 0).findSome? Vertex.defect? = some defect := by
  rw [stopsAt_build d 0]
  cases d.build <;> simp [stop?]

theorem build_eq_ok_iff {d : Derivation s} :
    (∃ value, d.build = .ok value) ↔ ∀ v ∈ d.postorder 0, v.defect? = none := by
  rw [← List.findSome?_eq_none_iff, stopsAt_build d 0]
  cases d.build <;> simp [stop?]

theorem parse_eq_error_iff {source : String} {d : Derivation .statements} (hl : Lexed source d.yield)
    (e : ParseError) :
    Source.parse source = .error e ↔
      ∃ before v after, d.postorder 0 = before ++ v :: after ∧
        (∀ u ∈ before, u.error? source = none) ∧ v.error? source = some e := by
  have hnone (u : Vertex) : u.error? source = none ↔ u.defect? = none := Option.map_eq_none_iff
  rw [parse_derivable hl, mapError_eq_error_iff]
  simp only [hnone]
  constructor
  · rintro ⟨defect, hb, rfl⟩
    obtain ⟨before, v, after, hd, hv, hb⟩ := List.findSome?_eq_some_iff.1 (build_eq_error_iff.1 hb)
    exact ⟨before, v, after, hd, hb, defectError_of_error? hl hd hb hv⟩
  · rintro ⟨before, v, after, hd, hb, hv⟩
    obtain ⟨defect, hdefect, -⟩ := Option.map_eq_some_iff.1 hv
    rw [defectError_of_error? hl hd hb hdefect] at hv
    refine ⟨defect, build_eq_error_iff.2 ?_, Option.some.inj hv⟩
    exact List.findSome?_eq_some_iff.2 ⟨before, v, after, hd, hdefect, hb⟩

theorem parse_isOk_iff {source : String} {d : Derivation .statements} (hl : Lexed source d.yield) :
    (∃ program, Source.parse source = .ok program) ↔ ∀ v ∈ d.postorder 0, v.defect? = none := by
  rw [← build_eq_ok_iff]
  simp only [parse_derivable hl, mapError_eq_ok_iff]

theorem mem_yield_iff {d : Derivation s} {t : Terminal} (ht : t.isLiteral) :
    t ∈ d.yield ↔ ∃ v ∈ d.postorder 0, ∃ i, v.literal? = some (t, i) := by
  have hmem : t ∈ d.yield ↔ ∃ i, (t, i) ∈ literals 0 d.yield := by
    rw [List.mem_iff_getElem?]
    simp only [literals, List.mem_filter, List.mk_mem_zipIdx_iff_getElem?, ht, and_true]
  rw [hmem, ← filterMap_literal? d 0]
  simp only [List.mem_filterMap]
  constructor
  · rintro ⟨i, v, hv, h⟩
    exact ⟨v, hv, i, h⟩
  · rintro ⟨v, hv, i, h⟩
    exact ⟨i, v, hv, h⟩

theorem no_defect_iff {d : Derivation s} :
    (∀ v ∈ d.postorder 0, v.defect? = none) ↔
      (∀ t ∈ d.yield, t.defect? = none) ∧
        ∀ target value start, ⟨_, .assignment target value, start⟩ ∈ d.postorder 0 → target.isTarget := by
  constructor
  · refine fun h => ⟨fun t ht => ?_, fun target value start hv => ?_⟩
    · by_cases hlit : t.isLiteral
      · obtain ⟨v, hv, i, hi⟩ := (mem_yield_iff hlit).1 ht
        exact (defect?_of_literal? hi).1.symm.trans (h v hv)
      · cases t <;> first | rfl | exact absurd rfl hlit
    · have := h _ hv
      simp only [Vertex.defect?] at this
      split at this
      · assumption
      · cases this
  · rintro ⟨hyield, htarget⟩ ⟨symbol, tree, start⟩ hv
    cases tree with
    | string text => exact hyield _ ((mem_yield_iff rfl).2 ⟨_, hv, _, rfl⟩)
    | imports name path => exact hyield _ ((mem_yield_iff rfl).2 ⟨_, hv, _, rfl⟩)
    | int digits => exact hyield _ ((mem_yield_iff rfl).2 ⟨_, hv, _, rfl⟩)
    | assignment target value => exact if_pos (htarget target value start hv)
    | _ => rfl

theorem defect?_eq_none_iff {ts : List Terminal} :
    (∀ t ∈ ts, t.defect? = none) ↔
      (∀ text, .string text ∈ ts → ∃ value, Literal.read text.toList = .ok value) ∧
        ∀ digits, .int digits ∈ ts → digits.length ≤ 4300 := by
  have hstring (text : String) :
      Terminal.defect? (.string text) = none ↔ ∃ value, Literal.read text.toList = .ok value := by
    rw [Terminal.defect?]
    cases Literal.read text.toList <;> simp
  have hint (digits : String) : Terminal.defect? (.int digits) = none ↔ digits.length ≤ 4300 := by
    simp [Terminal.defect?]
  constructor
  · exact fun h => ⟨fun text ht => (hstring text).1 (h _ ht), fun digits ht => (hint digits).1 (h _ ht)⟩
  · rintro ⟨hs, hi⟩ t ht
    cases t with
    | string text => exact (hstring text).2 (hs text ht)
    | int digits => exact (hint digits).2 (hi digits ht)
    | _ => rfl

/-- A text that cannot be derived is a syntax error. One that can be is a program exactly if its strings
and integers can be read and its targets are names or patterns of names; otherwise the error is that of
the first subtree, each counted after those in it, that has one. -/
theorem parse_reports_first_defect (source : String) :
    ((¬ ∃ d : Derivation .statements, Lexed source d.yield) →
      ∃ e, Source.parse source = .error e ∧ IsSyntaxError e) ∧
    ∀ d : Derivation .statements, Lexed source d.yield →
      ((∃ program, Source.parse source = .ok program) ↔
        (∀ text, .string text ∈ d.yield → ∃ value, Literal.read text.toList = .ok value) ∧
        (∀ digits, .int digits ∈ d.yield → digits.length ≤ 4300) ∧
        ∀ target value start, ⟨_, .assignment target value, start⟩ ∈ d.postorder 0 → target.isTarget) ∧
      ∀ e, Source.parse source = .error e ↔
        ∃ before v after, d.postorder 0 = before ++ v :: after ∧
          (∀ u ∈ before, u.error? source = none) ∧ v.error? source = some e := by
  refine ⟨parse_not_derivable, fun d hl => ⟨?_, parse_eq_error_iff hl⟩⟩
  rw [parse_isOk_iff hl, no_defect_iff, defect?_eq_none_iff, and_assoc]

-- the string on the right is met before the target on the left, and a syntax error before both
example : Source.parse "1 = \"\\q\"" = .error (.invalidString "\"\\q\"" .badEscape ⟨1, 5⟩) := by cbv

example : Source.parse "1 = \"\\q\" ]" = .error (.unexpectedToken "]" ⟨1, 10⟩) := by cbv

end AwaitScript.Grammar
