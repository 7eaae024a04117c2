import AwaitScript.Proofs.LexicalRules
import AwaitScript.Proofs.Traversal
import AwaitScript.Source.Program

/-! Parsing follows the grammar: the parser is the machine of the grammar, seen through the surface of
trees, and it takes a word for a keyword exactly where the grammar does. -/
namespace AwaitScript.Grammar
variable {s : Symbol}

/-! ### The surface of a tree -/

@[reducible] def Symbol.Shape : Symbol → Type
  | .statements => List Surface.Statement
  | .statement => Surface.Statement
  | .expression | .call | .atom => Surface.Expression
  | .parameter | .entry => String × Option Surface.Expression
  | .list item | .more item => List item.Shape

def Derivation.surface {s : Symbol} : Derivation s → s.Shape
  | noStatement | noItem | noMore | lastComma => []
  | statement first rest | firstItem first rest | next first rest => first.surface :: rest.surface
  | imports name path => .imports name path
  | expression e => .expression e.surface
  | assignment target value => .assignment target.surface value.surface
  | call c => c.surface
  | atom a => a.surface
  | invocation callee arguments => .call callee.surface arguments.surface
  | function parameters body => .function parameters.surface body.surface
  | object entries => .object entries.surface
  | array items => .array items.surface
  | identifier text => .name text
  | string text => .string text
  | float whole fraction => .float whole fraction
  | int digits => .int digits
  | boolean value => .boolean value
  | parameter name => (name, none)
  | default name value => (name, some value.surface)
  | pair key value => (key, some value.surface)
  | shorthand key => (key, none)

open Surface in
def Symbol.elaborate : (s : Symbol) → s.Shape → Except Defect s.Value
  | .statements, ss => elaborateStatements ss
  | .statement, s => s.elaborate
  | .expression, e | .call, e | .atom, e => e.elaborate
  | .parameter, (name, none) => .ok [.identifier name]
  | .parameter, (name, some e) => e.elaborate.map fun value => [.assignment (.identifier name) value]
  | .entry, (key, none) => .ok (.identifier key, .identifier key)
  | .entry, (key, some e) => e.elaborate.map fun value => (.identifier key, value)
  | .list item, xs | .more item, xs => xs.mapM item.elaborate

section Elaboration
open Surface

theorem elaborateItems_eq (es : List Expression) :
    elaborateItems es = es.mapM (Symbol.elaborate .expression) := by
  induction es with
  | nil => rfl
  | cons e es ih => rw [elaborateItems, ih, List.mapM_cons]; rfl

theorem elaborateEntries_eq (es : List Entry) :
    elaborateEntries es = es.mapM (Symbol.elaborate .entry) := by
  induction es with
  | nil => rfl
  | cons e es ih =>
    obtain ⟨key, value⟩ := e
    rw [List.mapM_cons, ← ih]
    cases value with
    | none => rfl
    | some e =>
      simp only [elaborateEntries, Symbol.elaborate]
      cases e.elaborate <;> rfl

theorem elaborateParameters_eq (ps : List Parameter) :
    elaborateParameters ps = ps.mapM (Symbol.elaborate .parameter) := by
  induction ps with
  | nil => rfl
  | cons p ps ih =>
    obtain ⟨name, value⟩ := p
    rw [List.mapM_cons, ← ih]
    cases value with
    | none => rfl
    | some e =>
      simp only [elaborateParameters, Symbol.elaborate]
      cases e.elaborate <;> rfl

theorem build_eq (d : Derivation s) : d.build = s.elaborate d.surface := by
  induction d with
  | noStatement => rfl
  | statement first rest hf hr => rw [Derivation.build, hf, hr]; rfl
  | imports name path => rfl
  | expression e he => exact he
  | assignment target value ht hv => rw [Derivation.build, ht, hv]; rfl
  | call c hc => exact hc
  | atom a ha => exact ha
  | invocation callee arguments hc ha =>
    rw [Derivation.build, hc, ha]
    simp only [Symbol.elaborate, Derivation.surface, Expression.elaborate, elaborateItems_eq]
  | function parameters body hp hb =>
    rw [Derivation.build, hp, hb]
    simp only [Symbol.elaborate, Derivation.surface, Expression.elaborate, elaborateParameters_eq]
  | object entries h =>
    rw [Derivation.build, h]
    simp only [Symbol.elaborate, Derivation.surface, Expression.elaborate, elaborateEntries_eq]
  | array items h =>
    rw [Derivation.build, h]
    simp only [Symbol.elaborate, Derivation.surface, Expression.elaborate, elaborateItems_eq]
  | identifier text => rfl
  | string text => rfl
  | float whole fraction => rfl
  | int digits => rfl
  | boolean value => rfl
  | parameter name => rfl
  | default name value hv => rw [Derivation.build, hv]; rfl
  | pair key value hv => rw [Derivation.build, hv]; rfl
  | shorthand key => rfl
  | noItem => rfl
  | firstItem first rest hf hr =>
    rw [Derivation.build, hf, hr]
    simp only [Symbol.elaborate, Derivation.surface, List.mapM_cons]
  | noMore => rfl
  | lastComma => rfl
  | next item rest hi hr =>
    rw [Derivation.build, hi, hr]
    simp only [Symbol.elaborate, Derivation.surface, List.mapM_cons]

end Elaboration

/-! ### The parser as the machine of the grammar -/

open AwaitScript.Grammar.Derivation

def Frame.surface : Frame → Surface.Frame
  | array items => .array (items.map Derivation.surface)
  | arguments callee items => .arguments callee.surface (items.map Derivation.surface)
  | assignment target => .assignment target.surface
  | entry entries key => .entry (entries.map Derivation.surface) key
  | default parameters name => .default (parameters.map Derivation.surface) name
  | body parameters outer => .body parameters.surface.reverse (outer.map Derivation.surface)

def Mode.surface : Mode → Surface.Mode
  | statement => .statement
  | operand => .operand
  | operator c => .operator c.surface
  | key entries => .key (entries.map Derivation.surface)
  | afterKey entries text => .afterKey (entries.map Derivation.surface) text
  | parameter parameters => .parameter (parameters.map Derivation.surface)
  | afterParameter parameters name => .afterParameter (parameters.map Derivation.surface) name
  | arrow parameters => .arrow parameters.surface.reverse
  | brace parameters => .brace parameters.surface.reverse
  | importName => .importName
  | importFrom name => .importFrom name
  | importPath name => .importPath name

def State.surface (σ : State) : Surface.State :=
  ⟨σ.mode.surface, σ.frames.map Frame.surface, σ.statements.map Derivation.surface⟩

@[simp] theorem surface_ofStatements (ds : List (Derivation .statement)) :
    (ofStatements ds).surface = ds.map Derivation.surface := by
  induction ds with
  | nil => rfl
  | cons d ds ih => rw [ofStatements, Derivation.surface, ih, List.map_cons]

@[simp] theorem surface_moreOf (comma : Bool) (ds : List (Derivation s)) :
    (moreOf comma ds).surface = ds.map Derivation.surface := by
  induction ds with
  | nil => cases comma <;> rfl
  | cons d ds ih => rw [moreOf, Derivation.surface, ih, List.map_cons]

@[simp] theorem surface_listOf (comma : Bool) (ds : List (Derivation s)) :
    (listOf comma ds).surface = ds.map Derivation.surface := by
  cases ds with
  | nil => rfl
  | cons d ds => rw [listOf, Derivation.surface, surface_moreOf, List.map_cons]

/-- A terminal is the one that `read` chooses among those with its text: a keyword where `read` accepts
it, and a name where it accepts no keyword. -/
def Natural (read : Terminal → Option State) : Terminal → Prop
  | .name text => ∀ k : Keyword, k.text = text → read (.keyword k) = none
  | .keyword k => (read (.keyword k)).isSome
  | _ => True

def Agrees (step : Surface.State.Step) (next : Option State) : Prop :=
  step.toOption = next.map State.surface

section Steps
open State
variable {frames : List Frame} {statements : List (Derivation .statement)} {t : Terminal}

attribute [local simp] Derivation.surface Frame.surface Mode.surface State.surface Terminal.token
  Except.toOption

theorem settle_surface (e : Derivation .expression) (frames : List Frame) :
    Surface.State.settle e.surface (frames.map Frame.surface) =
      ((settle e frames).1.surface, (settle e frames).2.map Frame.surface) := by
  fun_induction settle e frames with
  | case1 e target frames ih => exact ih
  | case2 e frames h =>
    cases frames with
    | nil => rfl
    | cons frame frames =>
      cases frame with
      | assignment target => exact (h target frames rfl).elim
      | _ => rfl

theorem agrees_beginOperand (h : Natural (beginOperand frames statements) t) :
    Agrees (Surface.State.beginOperand (frames.map Frame.surface)
      (statements.map Derivation.surface) t.token) (beginOperand frames statements t) := by
  cases t with
  | name text =>
    have ht (value : Bool) : text ≠ (Keyword.boolean value).text := by
      rintro rfl
      cases h (.boolean value) rfl
    have h₁ : text ≠ "true" := ht true
    have h₂ : text ≠ "false" := ht false
    simp only [Terminal.token, Surface.State.beginOperand, if_neg h₁, if_neg h₂]
    rfl
  | keyword k =>
    cases k with
    | boolean value => cases value <;> rfl
    | _ => cases h
  | _ => rfl

theorem agrees_beginStatement (h : Natural (beginStatement frames statements) t) :
    Agrees (Surface.State.beginStatement (frames.map Frame.surface)
      (statements.map Derivation.surface) t.token) (beginStatement frames statements t) := by
  cases t with
  | closeBrace =>
    cases frames with
    | nil => rfl
    | cons frame frames =>
      cases frame with
      | body parameters outer =>
        simp [Agrees, Surface.State.beginStatement, beginStatement]
      | _ => rfl
  | name text =>
    have ht : text ≠ "import" := by
      rintro rfl
      cases h .imports rfl
    simp only [Terminal.token, Surface.State.beginStatement, if_neg ht]
    refine agrees_beginOperand (t := .name text) fun k hk => ?_
    have := h k hk
    cases k with
    | imports => rfl
    | _ => exact this
  | keyword k =>
    cases k with
    | imports => rfl
    | origin => cases h
    | boolean value => cases value <;> rfl
  | _ => rfl

theorem agrees_beginItem (h : Natural (beginItem frames statements) t) :
    Agrees (Surface.State.beginItem (frames.map Frame.surface)
      (statements.map Derivation.surface) t.token) (beginItem frames statements t) := by
  cases t with
  | closeBracket =>
    cases frames with
    | nil => rfl
    | cons frame frames =>
      cases frame with
      | array items =>
        simp [Agrees, Surface.State.beginItem, beginItem]
      | _ => rfl
  | closeParen =>
    cases frames with
    | nil => rfl
    | cons frame frames =>
      cases frame with
      | arguments callee arguments =>
        simp [Agrees, Surface.State.beginItem, beginItem]
      | _ => rfl
  | name text => exact agrees_beginOperand (t := .name text) h
  | keyword k => exact agrees_beginOperand (t := .keyword k) h
  | _ => rfl

theorem agrees_endExpression {e : Derivation .expression}
    (h : Natural (endExpression e frames statements) t) :
    Agrees (Surface.State.endExpression e.surface (frames.map Frame.surface)
      (statements.map Derivation.surface) t.token) (endExpression e frames statements t) := by
  cases frames with
  | nil => exact @agrees_beginStatement [] (.expression e :: statements) t h
  | cons frame frames =>
    cases frame with
    | body parameters outer =>
      exact @agrees_beginStatement (.body parameters outer :: frames) (.expression e :: statements) t h
    | assignment target => cases t <;> rfl
    | _ =>
      cases t with
      | comma | closeBracket | closeParen | closeBrace =>
        simp [Agrees, Surface.State.endExpression, endExpression]
      | _ => rfl

theorem endExpression_arrow (e : Derivation .expression) (frames : List Frame)
    (statements : List (Derivation .statement)) :
    endExpression e frames statements .arrow = none := by
  cases frames with
  | nil => rfl
  | cons frame frames => cases frame <;> rfl

theorem agrees_afterOperand {c : Derivation .call}
    (h : Natural (afterOperand c frames statements) t) :
    Agrees (Surface.State.afterOperand c.surface (frames.map Frame.surface)
      (statements.map Derivation.surface) t.token) (afterOperand c frames statements t) := by
  have hs : Surface.State.settle c.surface (frames.map Frame.surface) = _ :=
    settle_surface (.call c) frames
  have hn : Natural (endExpression (settle (.call c) frames).1 (settle (.call c) frames).2
      statements) t := by
    cases t <;> exact h
  have he := agrees_endExpression hn
  cases t with
  | callParen | equals => rfl
  | arrow => exact congrArg (Option.map State.surface) (endExpression_arrow _ _ _).symm
  | _ =>
    simp only [Terminal.token, Surface.State.afterOperand, hs]
    exact he

theorem agrees_importFrom {name : String}
    (h : Natural (State.read ⟨.importFrom name, frames, statements⟩) t) :
    Agrees ((State.surface ⟨.importFrom name, frames, statements⟩).step t.token)
      (State.read ⟨.importFrom name, frames, statements⟩ t) := by
  cases t with
  | name text =>
    have ht : text ≠ "from" := by
      rintro rfl
      cases h .origin rfl
    simp only [Agrees, Terminal.token, Surface.State.step, State.surface, Mode.surface, if_neg ht]
    split <;> rfl
  | keyword k =>
    cases k with
    | origin => rfl
    | _ => cases h
  | _ => rfl

theorem agrees_step {σ : State} (h : Natural σ.read t) :
    Agrees (σ.surface.step t.token) (σ.read t) := by
  obtain ⟨mode, frames, statements⟩ := σ
  cases mode with
  | statement => exact agrees_beginStatement h
  | operand => exact agrees_beginItem h
  | operator c => exact agrees_afterOperand h
  | importFrom name => exact agrees_importFrom h
  | _ =>
    cases t with
    | keyword k => cases h
    | closeBrace | closeParen =>
      simp [Agrees, Surface.State.step, State.read]
    | _ => rfl

theorem finish_surface (σ : State) :
    σ.surface.finish? = σ.finish?.map Derivation.surface := by
  obtain ⟨mode, frames, statements⟩ := σ
  cases mode with
  | statement =>
    cases frames <;> simp [Surface.State.finish?, finish?]
  | operator c =>
    have hs : Surface.State.settle c.surface (frames.map Frame.surface) = _ :=
      settle_surface (.call c) frames
    simp only [Surface.State.finish?, finish?, State.surface, Mode.surface, hs, List.isEmpty_map]
    split
    · simp
    · rfl
  | _ => rfl

theorem step_stray (σ : Surface.State) (c : Char) : (σ.step (.stray c)).toOption = none := by
  obtain ⟨mode, frames, statements⟩ := σ
  cases mode with
  | operator e =>
    simp only [Surface.State.step, Surface.State.afterOperand]
    generalize Surface.State.settle e frames = p
    obtain ⟨e, frames⟩ := p
    cases frames with
    | nil => rfl
    | cons frame frames => cases frame <;> rfl
  | operand => cases frames <;> rfl
  | _ => rfl

end Steps

/-! ### The parser on a text -/

/-- The machine has read the terminals `before`, and the scanner knows whether an operand has just ended
on the line. -/
structure InStep (before : List Terminal) (sameLine afterOperand : Bool) (σ : State) : Prop where
  run : State.start.run before = some σ
  layout : afterOperand = true ↔
    sameLine = true ∧ ∃ t, before.getLast? = some t ∧ t.token.endsOperand

section Texts
open State
variable {before : List Terminal} {sameLine afterOperand : Bool} {σ σ' : State} {t : Terminal}

theorem mode_of_read_imports (h : σ.read (.keyword .imports) = some σ') :
    σ'.mode = .importName := by
  obtain ⟨mode, frames, statements⟩ := σ
  cases mode with
  | statement =>
    cases h
    rfl
  | operator c =>
    change endExpression (settle (.call c) frames).1 (settle (.call c) frames).2 statements _ = _ at h
    generalize (settle (.call c) frames).2 = frames' at h
    cases frames' with
    | nil =>
      cases h
      rfl
    | cons frame frames' =>
      cases frame <;> cases h
      rfl
  | operand => cases frames <;> cases h
  | _ => cases h

theorem mode_of_read_origin (h : σ.read (.keyword .origin) = some σ') :
    ∃ name, σ'.mode = .importPath name := by
  obtain ⟨mode, frames, statements⟩ := σ
  cases mode with
  | importFrom name =>
    cases h
    exact ⟨name, rfl⟩
  | operator c =>
    change endExpression (settle (.call c) frames).1 (settle (.call c) frames).2 statements _ = _ at h
    generalize (settle (.call c) frames).2 = frames' at h
    cases frames' with
    | nil => cases h
    | cons frame frames' => cases frame <;> cases h
  | operand => cases frames <;> cases h
  | _ => cases h

/- After `import` and `from` no parenthesis can be read, so it does not matter that the scanner takes
these words for operands. -/
theorem endsExpression_of_paren (hr : σ.read t = some σ')
    (hp : (σ'.read .openParen).isSome ∨ (σ'.read .callParen).isSome) (ht : t.token.endsOperand) :
    t.endsExpression := by
  obtain ⟨mode, frames, statements⟩ := σ'
  cases t with
  | keyword k =>
    cases k with
    | boolean value => rfl
    | imports =>
      obtain rfl : mode = _ := mode_of_read_imports hr
      obtain hp | hp := hp <;> cases hp
    | origin =>
      obtain ⟨name, hm⟩ := mode_of_read_origin hr
      obtain rfl : mode = _ := hm
      obtain hp | hp := hp <;> cases hp
  | name | int | float | string | closeParen | closeBrace | closeBracket => rfl
  | _ => cases ht

theorem endsOperand_of_endsExpression (h : t.endsExpression) : t.token.endsOperand := by
  cases t <;> first | rfl | cases h

theorem InStep.callPosition_iff (hs : InStep before sameLine afterOperand σ)
    (hp : (σ.read .openParen).isSome ∨ (σ.read .callParen).isSome) :
    CallPosition before sameLine ↔ afterOperand = true := by
  rw [hs.layout]
  constructor
  · rintro ⟨hl, t, ht, he⟩
    exact ⟨hl, t, ht, endsOperand_of_endsExpression he⟩
  · rintro ⟨hl, t, ht, he⟩
    refine ⟨hl, t, ht, ?_⟩
    obtain ⟨init, rfl⟩ := List.getLast?_eq_some_iff.1 ht
    have hr := hs.run
    rw [run_append] at hr
    obtain ⟨σ₀, -, hr⟩ := Option.bind_eq_some_iff.1 hr
    obtain ⟨σ₁, hr, he'⟩ := Option.bind_eq_some_iff.1 hr
    cases he'
    exact endsExpression_of_paren hr hp he

theorem plain_scanNumber (c : Char) (cs : List Char) :
    plain (Token.scanNumber c cs).1 ≠ .openParen := by
  unfold Token.scanNumber
  split
  · split <;> exact Token.noConfusion
  · exact Token.noConfusion

theorem scan_paren {c : Char} {cs : List Char}
    (h : plain (Token.scan afterOperand c cs).1 = .openParen) :
    (Token.scan afterOperand c cs).1 = if afterOperand then .callParen else .openParen := by
  unfold Token.scan at h ⊢
  by_cases hw : Token.isWordStart c
  · rw [if_pos hw] at h
    cases h
  · by_cases hd : DecimalDigit.isDigit c
    · rw [if_neg hw, if_pos hd] at h
      exact absurd h (plain_scanNumber c cs)
    · rw [if_neg hw, if_neg hd] at h ⊢
      fun_cases Token.scanMark afterOperand c cs
      case case1 => rfl
      all_goals simp_all [Token.scanMark, plain]

/-- Where the machine accepts a terminal, the scanner has the token of it exactly if the rules pick it
and the machine prefers it to others with the same text. -/
theorem InStep.admissible_iff (hs : InStep before sameLine afterOperand σ) {c : Char}
    {cs : List Char} (hr : (σ.read t).isSome)
    (hp : plain t.token = plain (Token.scan afterOperand c cs).1) :
    Admissible before sameLine t ↔
      Natural σ.read t ∧ t.token = (Token.scan afterOperand c cs).1 := by
  have hk (k : Keyword) := canFollow_iff hs.run (.keyword k)
  by_cases hparen : plain t.token = .openParen
  · have ht := scan_paren (hp.symm.trans hparen)
    obtain rfl | rfl := plain_token_eq_openParen hparen
    · rw [Admissible, hs.callPosition_iff (.inl hr), ht]
      cases afterOperand <;> simp [Natural, Terminal.token]
    · rw [Admissible, hs.callPosition_iff (.inr hr), ht]
      cases afterOperand <;> simp [Natural, Terminal.token]
  · have ht : t.token = (Token.scan afterOperand c cs).1 := by
      apply eq_of_plain hp
      · intro he
        rw [he] at hp
        contradiction
      · intro he
        rw [he] at hp
        contradiction
    rw [and_iff_left ht]
    cases t with
    | name text => simp only [Admissible, Natural, hk, Option.not_isSome_iff_eq_none]
    | keyword k => exact hk k
    | openParen | callParen => exact absurd rfl hparen
    | _ => exact Iff.rfl

theorem exists_natural (σ : State) (token : Token) (h : ∀ c, token ≠ .stray c) :
    ∃ t : Terminal, t.token = token ∧ Natural σ.read t := by
  cases token with
  | word text =>
    by_cases hk : ∃ k : Keyword, k.text = text ∧ (σ.read (.keyword k)).isSome
    · obtain ⟨k, rfl, hk⟩ := hk
      exact ⟨.keyword k, rfl, hk⟩
    · refine ⟨.name text, rfl, fun k ht => ?_⟩
      have hn : ¬ (σ.read (.keyword k)).isSome := fun hr => hk ⟨k, ht, hr⟩
      simpa using hn
  | stray c => exact absurd rfl (h c)
  | int digits => exact ⟨.int digits, rfl, trivial⟩
  | float whole fraction => exact ⟨.float whole fraction, rfl, trivial⟩
  | string text => exact ⟨.string text, rfl, trivial⟩
  | openParen => exact ⟨.openParen, rfl, trivial⟩
  | callParen => exact ⟨.callParen, rfl, trivial⟩
  | closeParen => exact ⟨.closeParen, rfl, trivial⟩
  | openBrace => exact ⟨.openBrace, rfl, trivial⟩
  | closeBrace => exact ⟨.closeBrace, rfl, trivial⟩
  | openBracket => exact ⟨.openBracket, rfl, trivial⟩
  | closeBracket => exact ⟨.closeBracket, rfl, trivial⟩
  | comma => exact ⟨.comma, rfl, trivial⟩
  | colon => exact ⟨.colon, rfl, trivial⟩
  | equals => exact ⟨.equals, rfl, trivial⟩
  | arrow => exact ⟨.arrow, rfl, trivial⟩

/-- One token of a text: the parser takes a step exactly if the machine reads a terminal that the rules
pick. -/
theorem InStep.step_iff (hs : InStep before sameLine afterOperand σ) (c : Char) (cs : List Char)
    (next : Surface.State) :
    σ.surface.step (Token.scan afterOperand c cs).1 = .ok next ↔
      ∃ t σ', plain t.token = plain (Token.scan afterOperand c cs).1 ∧
        Admissible before sameLine t ∧ σ.read t = some σ' ∧ σ'.surface = next := by
  constructor
  · intro h
    have ho : (σ.surface.step (Token.scan afterOperand c cs).1).toOption = some next := by
      rw [h]
      rfl
    obtain ⟨t, ht, hn⟩ := exists_natural σ (Token.scan afterOperand c cs).1 fun x hx => by
      rw [hx, step_stray] at ho
      cases ho
    have ha : Agrees _ _ := agrees_step hn
    rw [Agrees, ht, ho] at ha
    obtain ⟨σ', hr, rfl⟩ := Option.map_eq_some_iff.1 ha.symm
    have hp := congrArg plain ht
    exact ⟨t, σ', hp, (hs.admissible_iff (by simp [hr]) hp).2 ⟨hn, ht⟩, hr, rfl⟩
  · rintro ⟨t, σ', hp, ha, hr, rfl⟩
    obtain ⟨hn, ht⟩ := (hs.admissible_iff (by simp [hr]) hp).1 ha
    have ha : Agrees _ _ := agrees_step hn
    rw [Agrees, ht, hr] at ha
    cases hstep : σ.surface.step (Token.scan afterOperand c cs).1 with
    | error n =>
      rw [hstep] at ha
      cases ha
    | ok s =>
      rw [hstep] at ha
      cases ha
      rfl

theorem InStep.blank (hs : InStep before sameLine afterOperand σ) (c : Char) :
    InStep before (sameLine && c ≠ '\n') (afterOperand && c ≠ '\n') σ := by
  refine ⟨hs.run, ?_⟩
  rw [Bool.and_eq_true, Bool.and_eq_true, hs.layout]
  tauto

theorem InStep.next (hs : InStep before sameLine afterOperand σ) (hr : σ.read t = some σ') :
    InStep (before ++ [t]) true t.token.endsOperand σ' := by
  refine ⟨?_, ?_⟩
  · rw [run_of_run hs.run, run_of_read hr]
    rfl
  · simp

theorem surface_run_nil (σ : State) (index : Nat) (ss : List Surface.Statement) :
    Surface.run σ.surface index [] = .ok ss ↔ ∃ d, σ.finish? = some d ∧ d.surface = ss := by
  rw [Surface.run, finish_surface]
  cases σ.finish? with
  | none => simp
  | some d => simp

/-- The parser finds on a text exactly the tree that derives its terminals. -/
theorem surface_run_iff (text : List Char) (hs : InStep before sameLine afterOperand σ)
    (index offset : Nat) (ss : List Surface.Statement) :
    Surface.run σ.surface index ((Lexeme.scanFrom afterOperand offset text).map Lexeme.token) =
        .ok ss ↔
      ∃ (ts : List Terminal) (d : Derivation .statements),
        Lexes before sameLine text ts ∧ d.yield = before ++ ts ∧ d.surface = ss := by
  induction hn : text.length using Nat.strongRecOn generalizing
    text before sameLine afterOperand σ index offset with
  | ind n ih =>
    subst hn
    cases text with
    | nil =>
      rw [Lexeme.scanFrom, List.map_nil, surface_run_nil]
      constructor
      · rintro ⟨d, hf, rfl⟩
        exact ⟨[], d, .nil _ _, by simpa using run_finish_iff.1 ⟨σ, hs.run, hf⟩, rfl⟩
      · rintro ⟨ts, d, hl, hd, rfl⟩
        obtain rfl := lexes_nil_iff.1 hl
        rw [List.append_nil] at hd
        obtain ⟨σ', hr, hf⟩ := run_finish_iff.2 hd
        cases hs.run.symm.trans hr
        exact ⟨d, hf, rfl⟩
    | cons c cs =>
      rw [Lexeme.scanFrom]
      by_cases hc : Token.isBlank c
      · rw [if_pos hc, ih _ (by simp) cs (hs.blank c) _ _ rfl]
        simp only [lexes_blank_iff hc]
      · have hlt : (Token.scan afterOperand c cs).2.length < (c :: cs).length :=
          Nat.lt_succ_of_le (Token.length_scan_le afterOperand c cs)
        rw [if_neg hc]
        simp only [lexes_terminal_iff hc afterOperand, List.map_cons, Surface.run]
        constructor
        · intro h
          split at h
          · next next hstep =>
            obtain ⟨t, σ', hp, ha, hr, rfl⟩ := (hs.step_iff c cs next).1 hstep
            obtain ⟨-, ht⟩ := (hs.admissible_iff (by simp [hr]) hp).1 ha
            rw [← ht] at h
            obtain ⟨ts, d, hl, hd, he⟩ := (ih _ hlt _ (hs.next hr) _ _ rfl).1 h
            exact ⟨t :: ts, d, ⟨t, ts, rfl, hp, ha, hl⟩, by simpa using hd, he⟩
          · cases h
        · rintro ⟨_, d, ⟨t, ts, rfl, hp, ha, hl⟩, hd, he⟩
          have hr : (σ.read t).isSome := (canFollow_iff hs.run t).1 ⟨d, ts, hd⟩
          obtain ⟨σ', hr⟩ := Option.isSome_iff_exists.1 hr
          obtain ⟨-, ht⟩ := (hs.admissible_iff (by simp [hr]) hp).1 ha
          rw [(hs.step_iff c cs σ'.surface).2 ⟨t, σ', hp, ha, hr, rfl⟩, ← ht]
          exact (ih _ hlt _ (hs.next hr) _ _ rfl).2 ⟨ts, d, hl, by simpa using hd, he⟩

end Texts

/-! ### Programs -/

theorem inStep_start : InStep [] true false State.start := ⟨rfl, by simp⟩

theorem surface_eq_ok_iff {source : String} {ss : List Surface.Statement} :
    Source.surface source.toList = .ok ss ↔
      ∃ d : Derivation .statements, Lexed source d.yield ∧ d.surface = ss := by
  rw [Source.surface, mapError_eq_ok_iff]
  refine (surface_run_iff source.toList inStep_start 0 0 ss).trans ?_
  constructor
  · rintro ⟨ts, d, hl, rfl, he⟩
    exact ⟨d, hl, he⟩
  · rintro ⟨d, hl, he⟩
    exact ⟨d.yield, d, hl, rfl, he⟩

/-- The text is read as a whole, and only the tree may fail to be built: a string, the target of an
assignment or the length of an integer is wrong. -/
def PassesSyntax : Except ParseError Program → Prop
  | .ok _ | .error (.invalidString _ _ _) | .error (.invalidTarget _) | .error .longInteger => True
  | .error _ => False

theorem passesSyntax_defect (text : List Char) (lexemes : List Lexeme) (x : Except Surface.Defect Program) :
    PassesSyntax (x.mapError (Source.defectError text lexemes)) := by
  cases x with
  | ok program => trivial
  | error defect => cases defect <;> trivial

theorem not_passesSyntax_fault (text : List Char) (lexemes : List Lexeme) (fault : Surface.Fault) :
    ¬ PassesSyntax (.error (Source.faultError text lexemes fault)) := by
  cases fault with
  | ending => exact id
  | token index taken =>
    simp only [Source.faultError, Source.unexpected]
    split
    · exact id
    · split <;> exact id

theorem passesSyntax_parse_iff (source : String) :
    PassesSyntax (Source.parse source) ↔ ∃ ss, Source.surface source.toList = .ok ss := by
  unfold Source.parse
  cases h : Source.surface source.toList with
  | ok ss =>
    refine iff_of_true ?_ ⟨ss, rfl⟩
    exact passesSyntax_defect _ _ _
  | error e =>
    refine iff_of_false ?_ (by simp)
    rw [Source.surface] at h
    cases hp : Surface.parse ((Lexeme.scan source.toList).map Lexeme.token) with
    | ok ss =>
      rw [hp] at h
      cases h
    | error fault =>
      rw [hp] at h
      cases h
      exact not_passesSyntax_fault _ _ _

theorem parse_eq_ok_iff (source : String) (program : Program) :
    Source.parse source = .ok program ↔
      ∃ d : Derivation .statements, Lexed source d.yield ∧ d.build = .ok program := by
  have hb (d : Derivation .statements) : d.build = Surface.elaborateStatements d.surface := build_eq d
  unfold Source.parse
  constructor
  · intro h
    split at h
    · cases h
    · next ss hs =>
      obtain ⟨d, hl, rfl⟩ := surface_eq_ok_iff.1 hs
      exact ⟨d, hl, (hb d).trans (mapError_eq_ok_iff.1 h)⟩
  · rintro ⟨d, hl, hd⟩
    rw [surface_eq_ok_iff.2 ⟨d, hl, rfl⟩]
    exact mapError_eq_ok_iff.2 ((hb d).symm.trans hd)

/-- A source text passes syntax exactly when its terminals, of which there is one sequence at most, can
be derived. There is one derivation, and the program of the text is what the rules build on it. -/
theorem parse_follows_grammar (source : String) :
    (PassesSyntax (Source.parse source) ↔
      ∃ ts, Lexed source ts ∧ ∃ d : Derivation .statements, d.yield = ts) ∧
    (∀ ts ts', Lexed source ts → Lexed source ts' → ts = ts') ∧
    (∀ d d' : Derivation .statements, d.yield = d'.yield → d = d') ∧
    ∀ program, Source.parse source = .ok program ↔
      ∃ d : Derivation .statements, Lexed source d.yield ∧ d.build = .ok program := by
  refine ⟨?_, fun ts ts' => lexes_unique, fun d d' => yield_injective, parse_eq_ok_iff source⟩
  rw [passesSyntax_parse_iff]
  constructor
  · rintro ⟨ss, h⟩
    obtain ⟨d, hl, -⟩ := surface_eq_ok_iff.1 h
    exact ⟨d.yield, hl, d, rfl⟩
  · rintro ⟨ts, hl, d, rfl⟩
    exact ⟨d.surface, surface_eq_ok_iff.2 ⟨d, hl, rfl⟩⟩

end AwaitScript.Grammar
