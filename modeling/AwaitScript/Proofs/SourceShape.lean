import AwaitScript.Proofs.SourceGrammar
import AwaitScript.Proofs.Traversal

/-! The shape of the trees that source texts build, which is narrower than what the type of nodes admits.
Names are words, targets are names or patterns of names, a parameter is one name with or without a
default, a callee assigns nothing, and no statement leads with the word that starts an import. -/
namespace AwaitScript

def IsName (name : String) : Prop := Grammar.IsWord name.toList

/-- A name where an expression is expected; `true` and `false` are values there. -/
def IsVariable (name : String) : Prop :=
  IsName name ∧ ∀ value, name ≠ (Grammar.Keyword.boolean value).text

namespace Node

def isBinding : Node → Bool
  | .assignment _ _ | .destructuredAssignment _ _ => true
  | _ => false

/-- The name at the left end of a node, where only targets and callees stand before the rest. -/
def leading? : Node → Option String
  | .identifier name => some name
  | .assignment target _ => leading? target
  | .invocation callee _ => leading? callee
  | _ => none

/- The parts of a function and of an object are described by what may stand in their lists and then, for
each expression in them, by its own shape. -/
/-- What an expression of a source text builds from nodes whose kinds satisfy `K`. -/
inductive IsExpression (K : Kind → Prop) : Node → Prop
  | integer (hk : K .integer) (value : Nat) : IsExpression K (.integer value)
  | float (hk : K .float) (value : Binary64) : IsExpression K (.float value)
  | boolean (hk : K .boolean) (value : Bool) : IsExpression K (.boolean value)
  | string (hk : K .string) (value : Text) : IsExpression K (.string value)
  | identifier (hk : K .identifier) {name : String} (hn : IsVariable name) :
      IsExpression K (.identifier name)
  | assignment (hk : K .assignment) {name : String} {value : Node} (hn : IsVariable name)
      (hv : IsExpression K value) : IsExpression K (.assignment (.identifier name) value)
  | destructuredAssignment (hk : K .destructuredAssignment) {names : List String} {value : Node}
      (hn : ∀ name ∈ names, IsName name) (hv : IsExpression K value) :
      IsExpression K (.destructuredAssignment names value)
  | invocation (hk : K .invocation) {callee : Node} {arguments : List Node}
      (hc : IsExpression K callee) (hb : callee.isBinding = false)
      (ha : ∀ n ∈ arguments, IsExpression K n) : IsExpression K (.invocation callee arguments)
  | function (hk : K .function) {parameters : List (List Node)} {body : List Node}
      (hp : ∀ es ∈ parameters, ∃ name, IsName name ∧
        (es = [.identifier name] ∨ ∃ value, es = [.assignment (.identifier name) value]))
      (hv : ∀ name value, [.assignment (.identifier name) value] ∈ parameters → IsExpression K value)
      (hi : ∀ name path, .imports name path ∈ body → K .imports ∧ IsName name)
      (hl : ∀ n ∈ body, n.leading? ≠ some "import")
      (hb : ∀ n ∈ body, n.kind ≠ .imports → IsExpression K n) :
      IsExpression K (.function parameters body)
  | object (hk : K .object) {entries : List (Node × Node)}
      (he : ∀ e ∈ entries, ∃ key, IsName key ∧ e.1 = .identifier key)
      (hv : ∀ key value, (.identifier key, value) ∈ entries → value ≠ .identifier key →
        IsExpression K value) : IsExpression K (.object entries)
  | array (hk : K .array) {items : List Node} (hi : ∀ n ∈ items, IsExpression K n) :
      IsExpression K (.array items)

def IsStatement (K : Kind → Prop) (n : Node) : Prop :=
  (∃ name path, n = .imports name path ∧ K .imports ∧ IsName name) ∨
    IsExpression K n ∧ n.leading? ≠ some "import"

theorem IsStatement.leading_ne {K : Kind → Prop} {n : Node} (h : IsStatement K n) :
    n.leading? ≠ some "import" := by
  obtain ⟨name, path, rfl, -⟩ | ⟨-, h⟩ := h
  · simp [leading?]
  · exact h

def IsParameter (K : Kind → Prop) (es : List Node) : Prop :=
  ∃ name, IsName name ∧ (es = [.identifier name] ∨
    ∃ value, IsExpression K value ∧ es = [.assignment (.identifier name) value])

def IsEntry (K : Kind → Prop) (e : Node × Node) : Prop :=
  ∃ key, IsName key ∧ e.1 = .identifier key ∧ (e.2 = .identifier key ∨ IsExpression K e.2)

theorem mem_subnodes_self (n : Node) : n ∈ n.subnodes := by
  cases n <;> simp [subnodes]

theorem IsExpression.restrict {K L : Kind → Prop} {n : Node} (h : IsExpression K n)
    (hn : ∀ m ∈ n.subnodes, L m.kind) : IsExpression L n := by
  have hself {m : Node} (h : ∀ x ∈ m.subnodes, L x.kind) : L m.kind := h m (mem_subnodes_self m)
  induction h with
  | integer hk value => exact .integer (hself hn) value
  | float hk value => exact .float (hself hn) value
  | boolean hk value => exact .boolean (hself hn) value
  | string hk value => exact .string (hself hn) value
  | identifier hk hname => exact .identifier (hself hn) hname
  | assignment hk hname hv ih =>
    exact .assignment (hself hn) hname (ih fun m hm => hn m (by simp [subnodes, hm]))
  | destructuredAssignment hk hnames hv ih =>
    exact .destructuredAssignment (hself hn) hnames (ih fun m hm => hn m (by simp [subnodes, hm]))
  | invocation hk hc hb ha ihc iha =>
    rw [subnodes, List.forall_mem_cons, List.forall_mem_append, forall_listSubnodes] at hn
    obtain ⟨hk, hcallee, harguments⟩ := hn
    exact .invocation hk (ihc hcallee) hb fun n hmem => iha n hmem (harguments n hmem)
  | function hk hp hv hi hl hb ihv ihb =>
    rw [subnodes, List.forall_mem_cons, List.forall_mem_append, forall_listSubnodes,
      forall_parameterSubnodes] at hn
    obtain ⟨hk, hparameters, hbody⟩ := hn
    refine .function hk hp (fun name value hmem => ?_) (fun name path hmem => ?_) hl
      fun n hmem hni => ihb n hmem hni (hbody n hmem)
    · apply ihv name value hmem
      intro m hm
      exact hparameters _ hmem _ (List.mem_singleton_self _) m (by simp [subnodes, hm])
    · exact ⟨hself (hbody _ hmem), (hi name path hmem).2⟩
  | object hk he hv ih =>
    rw [subnodes, List.forall_mem_cons, forall_entrySubnodes] at hn
    exact .object hn.1 he fun key value hmem hne => ih key value hmem hne (hn.2 _ hmem).2
  | array hk hi ih =>
    rw [subnodes, List.forall_mem_cons, forall_listSubnodes] at hn
    exact .array hn.1 fun n hmem => ih n hmem (hn.2 n hmem)

end Node

namespace Grammar
open Node

variable {s t : Symbol} {pre post : List Terminal}

/-- Where the rules that cut texts take a word for a name, it is one, and no keyword could stand there. -/
theorem name_of_lexes {before ts : List Terminal} {sameLine : Bool} {text : List Char}
    (h : Lexes before sameLine text ts) (us : List Terminal) (name : String) (vs : List Terminal)
    (hts : ts = us ++ .name name :: vs) :
    IsName name ∧ ∀ k : Keyword, k.text = name → ¬ CanFollow (before ++ us) (.keyword k) := by
  induction h generalizing us with
  | nil => simp at hts
  | blank hc h ih => exact ih us hts
  | @terminal before sameLine w rest t ts hm ha h ih =>
    cases us with
    | nil =>
      obtain ⟨rfl, rfl⟩ := List.cons.inj hts
      obtain ⟨hw, rfl⟩ := hm.1
      rw [List.append_nil]
      exact ⟨hw, ha⟩
    | cons u us =>
      obtain ⟨rfl, hrest⟩ := List.cons.inj hts
      simpa using ih us hrest

/-- The tree stands between `pre` and `post` in a program, as any other tree of its symbol could, and the
rules take its words for names. -/
structure Stands (d : Derivation s) (pre post : List Terminal) : Prop where
  fills : ∀ d' : Derivation s, ∃ D : Derivation .statements, D.yield = pre ++ d'.yield ++ post
  names : ∀ us name vs, pre ++ d.yield ++ post = us ++ .name name :: vs →
    IsName name ∧ ∀ k : Keyword, k.text = name → ¬ CanFollow us (.keyword k)

/-- A part of a tree stands where the rest of the tree leaves room for it. -/
theorem Stands.part {d : Derivation s} (h : Stands d pre post) {e : Derivation t}
    (build : Derivation t → Derivation s) (us vs : List Terminal) (hd : build e = d)
    (hy : ∀ e', (build e').yield = us ++ e'.yield ++ vs) : Stands e (pre ++ us) (vs ++ post) := by
  subst hd
  constructor
  · intro e'
    obtain ⟨D, hD⟩ := h.fills (build e')
    exact ⟨D, by simpa [hy] using hD⟩
  · intro xs name ys hxs
    apply h.names xs name ys
    simpa [hy] using hxs

theorem Stands.isName {d : Derivation s} (h : Stands d pre post) {name : String}
    {vs : List Terminal} (hd : d.yield = .name name :: vs) : IsName name :=
  (h.names pre name (vs ++ post) (by simp [hd])).1

theorem Stands.isVariable {name : String} (h : Stands (.identifier name) pre post) :
    IsVariable name := by
  refine ⟨h.isName rfl, fun value hv => ?_⟩
  -- a value could stand in the place of the name
  obtain ⟨D, hD⟩ := h.fills (.boolean value)
  apply (h.names pre name post (by simp [Derivation.yield])).2 _ hv.symm
  exact ⟨D, post, by simpa [Derivation.yield] using hD⟩

def Symbol.Builds (K : Kind → Prop) : (s : Symbol) → s.Value → Prop
  | .statements, ns => ∀ n ∈ ns, IsStatement K n
  | .statement, n => IsStatement K n
  | .expression, n => IsExpression K n
  | .call, n | .atom, n => IsExpression K n ∧ n.isBinding = false
  | .parameter, es => IsParameter K es
  | .entry, e => IsEntry K e
  | .list item, vs | .more item, vs => ∀ v ∈ vs, item.Builds K v

theorem exists_of_mem_mapM {α β : Type} {f : α → Option β} {xs : List α} {ys : List β}
    (h : xs.mapM f = some ys) {y : β} (hy : y ∈ ys) : ∃ x ∈ xs, f x = some y := by
  induction xs generalizing ys with
  | nil =>
    obtain rfl : [] = ys := by simpa using h
    cases hy
  | cons x xs ih =>
    simp only [List.mapM_cons, Option.pure_def, Option.bind_eq_bind, Option.bind_eq_some_iff] at h
    obtain ⟨z, hz, zs, hzs, h⟩ := h
    cases h
    obtain rfl | hy := List.mem_cons.1 hy
    · exact ⟨x, by simp, hz⟩
    · obtain ⟨x', hx, hf⟩ := ih hzs hy
      exact ⟨x', by simp [hx], hf⟩

section

variable {K : Kind → Prop}

theorem isName_of_pattern {n : Node} {names : List String} (hn : IsExpression K n)
    (h : Surface.pattern? n = some names) : ∀ name ∈ names, IsName name := by
  intro name hname
  cases hn with
  | array hk hi =>
    obtain ⟨item, hitem, hf⟩ := exists_of_mem_mapM h hname
    have he := hi item hitem
    cases item with
    | identifier text =>
      cases hf
      cases he with
      | identifier hk hv => exact hv.1
    | _ => cases hf
  | object hk he hv =>
    obtain ⟨⟨k, v⟩, hentry, hf⟩ := exists_of_mem_mapM h hname
    obtain ⟨key, hkey, rfl⟩ : ∃ key, IsName key ∧ k = .identifier key := he _ hentry
    cases v with
    | identifier text =>
      obtain ⟨-, rfl⟩ : key = text ∧ key = name := by simpa [Surface.entryName?] using hf
      exact hkey
    | _ => cases hf
  | _ => cases h

theorem isExpression_function (hk : K .function) {parameters : List (List Node)} {body : List Node}
    (hp : ∀ es ∈ parameters, IsParameter K es) (hb : ∀ n ∈ body, IsStatement K n) :
    IsExpression K (.function parameters body) := by
  refine .function hk (fun es hes => ?_) (fun name value hmem => ?_) (fun name path hmem => ?_)
    (fun n hn => (hb n hn).leading_ne) fun n hn hni => ?_
  · obtain ⟨name, hname, rfl | ⟨value, -, rfl⟩⟩ := hp es hes
    · exact ⟨name, hname, .inl rfl⟩
    · exact ⟨name, hname, .inr ⟨value, rfl⟩⟩
  · obtain ⟨name', -, h | ⟨value', hv, h⟩⟩ := hp _ hmem
    · cases h
    · cases h
      exact hv
  · obtain ⟨name', path', h, hkind, hname⟩ | ⟨h, -⟩ := hb _ hmem
    · cases h
      exact ⟨hkind, hname⟩
    · cases h
  · obtain ⟨name, path, rfl, -⟩ | ⟨h, -⟩ := hb n hn
    · exact absurd rfl hni
    · exact h

theorem isExpression_object (hk : K .object) {entries : List (Node × Node)}
    (he : ∀ e ∈ entries, IsEntry K e) : IsExpression K (.object entries) := by
  refine .object hk (fun e hmem => ?_) fun key value hmem hne => ?_
  · obtain ⟨key, hkey, h, -⟩ := he e hmem
    exact ⟨key, hkey, h⟩
  · obtain ⟨key', -, h, hv | hv⟩ := he _ hmem
    · cases h
      exact absurd hv hne
    · exact hv

end

theorem isExpression_assign {target value n : Node} (ht : IsExpression (fun _ => True) target)
    (hv : IsExpression (fun _ => True) value) (h : Surface.assign target value = .ok n) :
    IsExpression (fun _ => True) n := by
  unfold Surface.assign at h
  split at h
  · cases h
    cases ht with
    | identifier hk hn => exact .assignment trivial hn hv
  · split at h
    · next names hnames =>
      cases h
      exact .destructuredAssignment trivial (isName_of_pattern ht hnames) hv
    · cases h

def Symbol.Leads : (s : Symbol) → s.Value → List Terminal → Prop
  | .expression, n, ts | .call, n, ts | .atom, n, ts =>
    ∀ name, n.leading? = some name → ∃ vs, ts = .name name :: vs
  | _, _, _ => True

theorem leading_assign {target value n : Node} (h : Surface.assign target value = .ok n) {name : String}
    (hn : n.leading? = some name) : target.leading? = some name := by
  unfold Surface.assign at h
  split at h
  · cases h
    exact hn
  · split at h
    · cases h
      cases hn
    · cases h

theorem leads_atom {n : Node} (h : n.leading? = none) (ts : List Terminal) :
    Symbol.Leads .atom n ts := by
  intro name hname
  rw [h] at hname
  cases hname

theorem leads_of_build (d : Derivation s) {v : s.Value} (hb : d.build = .ok v) :
    s.Leads v d.yield := by
  induction d with
  | assignment target value iht ihv =>
    obtain ⟨t, ht, hb⟩ := bind_eq_ok_iff.1 hb
    obtain ⟨v, hv, hb⟩ := bind_eq_ok_iff.1 hb
    intro name hname
    obtain ⟨vs, hvs⟩ := iht ht name (leading_assign hb hname)
    exact ⟨vs ++ .equals :: value.yield, by rw [Derivation.yield, hvs]; rfl⟩
  | call c ih => exact ih hb
  | atom a ih => exact ih hb
  | invocation callee arguments ihc iha =>
    obtain ⟨c, hc, hb⟩ := bind_eq_ok_iff.1 hb
    obtain ⟨as, has, hb⟩ := bind_eq_ok_iff.1 hb
    cases hb
    intro name hname
    obtain ⟨vs, hvs⟩ := ihc hc name hname
    exact ⟨vs ++ .callParen :: arguments.yield ++ [.closeParen], by rw [Derivation.yield, hvs]; rfl⟩
  | function parameters body =>
    obtain ⟨ps, -, hb⟩ := bind_eq_ok_iff.1 hb
    obtain ⟨ns, -, hb⟩ := bind_eq_ok_iff.1 hb
    cases hb
    exact leads_atom rfl _
  | object | array | string =>
    obtain ⟨value, -, rfl⟩ := map_eq_ok_iff.1 hb
    exact leads_atom rfl _
  | identifier text =>
    cases hb
    intro name hname
    cases hname
    exact ⟨[], rfl⟩
  | float | boolean =>
    cases hb
    exact leads_atom rfl _
  | int digits =>
    unfold Derivation.build Surface.readInteger at hb
    split at hb
    · cases hb
    · cases hb
      exact leads_atom rfl _
  | _ => exact trivial

/-- Where an import could stand, no expression leads with its first word. -/
theorem Stands.leading_ne {e : Derivation .expression} (h : Stands (.expression e) pre post) {n : Node}
    (hb : e.build = .ok n) : n.leading? ≠ some "import" := by
  intro hn
  obtain ⟨vs, hvs⟩ := leads_of_build e hb "import" hn
  obtain ⟨D, hD⟩ := h.fills (.imports "name" "path")
  apply (h.names pre "import" (vs ++ post) (by simp [Derivation.yield, hvs])).2 .imports rfl
  exact ⟨D, _, by simpa [Derivation.yield] using hD⟩

/-- A tree builds what its symbol says: the parts of a tree stand in it, and each rule keeps the shape. -/
theorem builds_of_build {d : Derivation s} (h : Stands d pre post) {v : s.Value}
    (hb : d.build = .ok v) : s.Builds (fun _ => True) v := by
  induction d generalizing pre post with
  | noStatement | noItem | noMore | lastComma =>
    cases hb
    exact nofun
  | statement first rest ihf ihr =>
    obtain ⟨n, hn, hb⟩ := bind_eq_ok_iff.1 hb
    obtain ⟨ns, hns, hb⟩ := bind_eq_ok_iff.1 hb
    cases hb
    have hf := ihf (h.part (.statement · rest) [] rest.yield rfl fun _ => rfl) hn
    have hr := ihr (h.part (.statement first) first.yield [] rfl fun _ => by simp [Derivation.yield]) hns
    exact List.forall_mem_cons.2 ⟨hf, hr⟩
  | firstItem first rest ihf ihr =>
    obtain ⟨v, hv, hb⟩ := bind_eq_ok_iff.1 hb
    obtain ⟨vs, hvs, hb⟩ := bind_eq_ok_iff.1 hb
    cases hb
    have hf := ihf (h.part (.firstItem · rest) [] rest.yield rfl fun _ => rfl) hv
    have hr := ihr (h.part (.firstItem first) first.yield [] rfl fun _ => by simp [Derivation.yield]) hvs
    exact List.forall_mem_cons.2 ⟨hf, hr⟩
  | next item rest ihi ihr =>
    obtain ⟨v, hv, hb⟩ := bind_eq_ok_iff.1 hb
    obtain ⟨vs, hvs, hb⟩ := bind_eq_ok_iff.1 hb
    cases hb
    have hi := ihi (h.part (.next · rest) [.comma] rest.yield rfl fun _ => rfl) hv
    have hr := ihr (h.part (.next item) (.comma :: item.yield) [] rfl
      fun _ => by simp [Derivation.yield]) hvs
    exact List.forall_mem_cons.2 ⟨hi, hr⟩
  | imports name path =>
    obtain ⟨text, -, rfl⟩ := map_eq_ok_iff.1 hb
    have hn := h.names (pre ++ [.keyword .imports]) name (.keyword .origin :: .string path :: post)
      (by simp [Derivation.yield])
    exact .inl ⟨name, text, rfl, trivial, hn.1⟩
  | expression e ih =>
    exact .inr ⟨ih (h.part .expression [] [] rfl fun _ => by simp [Derivation.yield]) hb,
      h.leading_ne hb⟩
  | assignment target value iht ihv =>
    obtain ⟨t, ht, hb⟩ := bind_eq_ok_iff.1 hb
    obtain ⟨v, hv, hb⟩ := bind_eq_ok_iff.1 hb
    have htarget := iht (h.part (.assignment · value) [] (.equals :: value.yield) rfl fun _ => rfl) ht
    have hvalue := ihv (h.part (.assignment target) (target.yield ++ [.equals]) [] rfl
      fun _ => by simp [Derivation.yield]) hv
    exact isExpression_assign htarget.1 hvalue hb
  | call c ih => exact (ih (h.part .call [] [] rfl fun _ => by simp [Derivation.yield]) hb).1
  | atom a ih => exact ih (h.part .atom [] [] rfl fun _ => by simp [Derivation.yield]) hb
  | invocation callee arguments ihc iha =>
    obtain ⟨c, hc, hb⟩ := bind_eq_ok_iff.1 hb
    obtain ⟨as, has, hb⟩ := bind_eq_ok_iff.1 hb
    cases hb
    have hcallee := ihc (h.part (.invocation · arguments) []
      (.callParen :: arguments.yield ++ [.closeParen]) rfl fun _ => by simp [Derivation.yield]) hc
    have harguments := iha (h.part (.invocation callee) (callee.yield ++ [.callParen]) [.closeParen]
      rfl fun _ => by simp [Derivation.yield]) has
    exact ⟨.invocation trivial hcallee.1 hcallee.2 harguments, rfl⟩
  | function parameters body ihp ihb =>
    obtain ⟨ps, hps, hb⟩ := bind_eq_ok_iff.1 hb
    obtain ⟨ns, hns, hb⟩ := bind_eq_ok_iff.1 hb
    cases hb
    have hparameters := ihp (h.part (.function · body) [.openParen]
      (.closeParen :: .arrow :: .openBrace :: body.yield ++ [.closeBrace]) rfl
      fun _ => by simp [Derivation.yield]) hps
    have hbody := ihb (h.part (.function parameters)
      (.openParen :: parameters.yield ++ [.closeParen, .arrow, .openBrace]) [.closeBrace] rfl
      fun _ => by simp [Derivation.yield]) hns
    exact ⟨isExpression_function trivial hparameters hbody, rfl⟩
  | object entries ih =>
    obtain ⟨es, hes, rfl⟩ := map_eq_ok_iff.1 hb
    have hentries := ih (h.part .object [.openBrace] [.closeBrace] rfl fun _ => rfl) hes
    exact ⟨isExpression_object trivial hentries, rfl⟩
  | array items ih =>
    obtain ⟨ns, hns, rfl⟩ := map_eq_ok_iff.1 hb
    exact ⟨.array trivial (ih (h.part .array [.openBracket] [.closeBracket] rfl fun _ => rfl) hns), rfl⟩
  | identifier text =>
    cases hb
    exact ⟨.identifier trivial h.isVariable, rfl⟩
  | string text =>
    obtain ⟨value, -, rfl⟩ := map_eq_ok_iff.1 hb
    exact ⟨.string trivial value, rfl⟩
  | float whole fraction =>
    cases hb
    exact ⟨.float trivial _, rfl⟩
  | int digits =>
    unfold Derivation.build Surface.readInteger at hb
    split at hb
    · cases hb
    · cases hb
      exact ⟨.integer trivial _, rfl⟩
  | boolean value =>
    cases hb
    exact ⟨.boolean trivial value, rfl⟩
  | parameter name =>
    cases hb
    exact ⟨name, h.isName rfl, .inl rfl⟩
  | default name value ih =>
    obtain ⟨v, hv, rfl⟩ := map_eq_ok_iff.1 hb
    have hvalue := ih (h.part (.default name) [.name name, .equals] [] rfl
      fun _ => by simp [Derivation.yield]) hv
    exact ⟨name, h.isName rfl, .inr ⟨v, hvalue, rfl⟩⟩
  | pair key value ih =>
    obtain ⟨v, hv, rfl⟩ := map_eq_ok_iff.1 hb
    have hvalue := ih (h.part (.pair key) [.name key, .colon] [] rfl
      fun _ => by simp [Derivation.yield]) hv
    exact ⟨key, h.isName rfl, rfl, .inr hvalue⟩
  | shorthand key =>
    cases hb
    exact ⟨key, h.isName rfl, rfl, .inl rfl⟩

end Grammar

theorem Source.isStatement_of_parse {source : String} {program : Program}
    (h : Source.parse source = .ok program) : ∀ n ∈ program, Node.IsStatement (fun _ => True) n := by
  obtain ⟨d, hl, hb⟩ := (Grammar.parse_eq_ok_iff source program).1 h
  have hd : Grammar.Stands d [] [] := by
    refine ⟨fun d' => ⟨d', by simp⟩, fun us name vs hus => ?_⟩
    exact Grammar.name_of_lexes hl us name vs (by simpa using hus)
  exact Grammar.builds_of_build hd hb

end AwaitScript
