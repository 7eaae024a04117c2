import AwaitScript.Proofs.Grammar

/-! A machine that reads terminals one at a time and builds the derivation tree. Its state says all that
has been read, it can always be completed, and it rebuilds every tree from what the tree derives; so
the grammar is unambiguous, and the machine tells which terminals may come next. -/
namespace AwaitScript.Grammar
variable {s : Symbol}

namespace Derivation

def ofStatements : List (Derivation .statement) → Derivation .statements
  | [] => noStatement
  | d :: ds => statement d (ofStatements ds)

def moreOf (comma : Bool) : List (Derivation s) → Derivation (.more s)
  | [] => if comma then lastComma else noMore
  | d :: ds => next d (moreOf comma ds)

def listOf (comma : Bool) : List (Derivation s) → Derivation (.list s)
  | [] => noItem
  | d :: ds => firstItem d (moreOf comma ds)

end Derivation

open AwaitScript.Grammar.Derivation

/- As in the parser, lists hold the last element first. -/
inductive Frame where
  | array (items : List (Derivation .expression))
  | arguments (callee : Derivation .call) (arguments : List (Derivation .expression))
  | assignment (target : Derivation .call)
  | entry (entries : List (Derivation .entry)) (key : String)
  | default (parameters : List (Derivation .parameter)) (name : String)
  | body (parameters : Derivation (.list .parameter)) (outer : List (Derivation .statement))

inductive Mode where
  | statement
  | operand
  | operator (c : Derivation .call)
  | key (entries : List (Derivation .entry))
  | afterKey (entries : List (Derivation .entry)) (key : String)
  | parameter (parameters : List (Derivation .parameter))
  | afterParameter (parameters : List (Derivation .parameter)) (name : String)
  | arrow (parameters : Derivation (.list .parameter))
  | brace (parameters : Derivation (.list .parameter))
  | importName
  | importFrom (name : String)
  | importPath (name : String)

structure State where
  mode : Mode
  frames : List Frame
  statements : List (Derivation .statement)

namespace State

def start : State := ⟨.statement, [], []⟩

def settle : Derivation .expression → List Frame → Derivation .expression × List Frame
  | e, .assignment target :: frames => settle (.assignment target e) frames
  | e, frames => (e, frames)

def beginOperand (frames : List Frame) (statements : List (Derivation .statement)) :
    Terminal → Option State
  | .name text => some ⟨.operator (.atom (.identifier text)), frames, statements⟩
  | .keyword (.boolean value) => some ⟨.operator (.atom (.boolean value)), frames, statements⟩
  | .int digits => some ⟨.operator (.atom (.int digits)), frames, statements⟩
  | .float whole fraction => some ⟨.operator (.atom (.float whole fraction)), frames, statements⟩
  | .string text => some ⟨.operator (.atom (.string text)), frames, statements⟩
  | .openParen => some ⟨.parameter [], frames, statements⟩
  | .openBrace => some ⟨.key [], frames, statements⟩
  | .openBracket => some ⟨.operand, .array [] :: frames, statements⟩
  | _ => none

def beginStatement (frames : List Frame) (statements : List (Derivation .statement)) :
    Terminal → Option State
  | .closeBrace =>
    match frames with
    | .body parameters outer :: frames =>
      some ⟨.operator (.atom (.function parameters (ofStatements statements.reverse))), frames, outer⟩
    | _ => none
  | .keyword .imports => some ⟨.importName, frames, statements⟩
  | t => beginOperand frames statements t

def beginItem (frames : List Frame) (statements : List (Derivation .statement)) (t : Terminal) :
    Option State :=
  match t, frames with
  | .closeBracket, .array items :: frames =>
    some ⟨.operator (.atom (.array (listOf true items.reverse))), frames, statements⟩
  | .closeParen, .arguments callee arguments :: frames =>
    some ⟨.operator (.invocation callee (listOf true arguments.reverse)), frames, statements⟩
  | t, frames => beginOperand frames statements t

def endExpression (e : Derivation .expression) (frames : List Frame)
    (statements : List (Derivation .statement)) (t : Terminal) : Option State :=
  match frames, t with
  | .array items :: frames, .comma => some ⟨.operand, .array (e :: items) :: frames, statements⟩
  | .array items :: frames, .closeBracket =>
    some ⟨.operator (.atom (.array (listOf false (e :: items).reverse))), frames, statements⟩
  | .arguments callee arguments :: frames, .comma =>
    some ⟨.operand, .arguments callee (e :: arguments) :: frames, statements⟩
  | .arguments callee arguments :: frames, .closeParen =>
    some ⟨.operator (.invocation callee (listOf false (e :: arguments).reverse)), frames, statements⟩
  | .entry entries key :: frames, .comma => some ⟨.key (.pair key e :: entries), frames, statements⟩
  | .entry entries key :: frames, .closeBrace =>
    some ⟨.operator (.atom (.object (listOf false (.pair key e :: entries).reverse))), frames,
      statements⟩
  | .default parameters name :: frames, .comma =>
    some ⟨.parameter (.default name e :: parameters), frames, statements⟩
  | .default parameters name :: frames, .closeParen =>
    some ⟨.arrow (listOf false (.default name e :: parameters).reverse), frames, statements⟩
  | [], t => beginStatement [] (.expression e :: statements) t
  | .body parameters outer :: frames, t =>
    beginStatement (.body parameters outer :: frames) (.expression e :: statements) t
  | _, _ => none

def afterOperand (c : Derivation .call) (frames : List Frame)
    (statements : List (Derivation .statement)) : Terminal → Option State
  | .callParen => some ⟨.operand, .arguments c [] :: frames, statements⟩
  | .equals => some ⟨.operand, .assignment c :: frames, statements⟩
  | t => endExpression (settle (.call c) frames).1 (settle (.call c) frames).2 statements t

def read (σ : State) (t : Terminal) : Option State :=
  match σ.mode, t with
  | .statement, t => beginStatement σ.frames σ.statements t
  | .operand, t => beginItem σ.frames σ.statements t
  | .operator c, t => afterOperand c σ.frames σ.statements t
  | .key entries, .name key => some { σ with mode := .afterKey entries key }
  | .key entries, .closeBrace =>
    some { σ with mode := .operator (.atom (.object (listOf true entries.reverse))) }
  | .afterKey entries key, .colon =>
    some { σ with mode := .operand, frames := .entry entries key :: σ.frames }
  | .afterKey entries key, .comma => some { σ with mode := .key (.shorthand key :: entries) }
  | .afterKey entries key, .closeBrace =>
    some { σ with
      mode := .operator (.atom (.object (listOf false (.shorthand key :: entries).reverse))) }
  | .parameter parameters, .name name => some { σ with mode := .afterParameter parameters name }
  | .parameter parameters, .closeParen =>
    some { σ with mode := .arrow (listOf true parameters.reverse) }
  | .afterParameter parameters name, .equals =>
    some { σ with mode := .operand, frames := .default parameters name :: σ.frames }
  | .afterParameter parameters name, .comma =>
    some { σ with mode := .parameter (.parameter name :: parameters) }
  | .afterParameter parameters name, .closeParen =>
    some { σ with mode := .arrow (listOf false (.parameter name :: parameters).reverse) }
  | .arrow parameters, .arrow => some { σ with mode := .brace parameters }
  | .brace parameters, .openBrace =>
    some ⟨.statement, .body parameters σ.statements :: σ.frames, []⟩
  | .importName, .name name => some { σ with mode := .importFrom name }
  | .importFrom name, .keyword .origin => some { σ with mode := .importPath name }
  | .importPath name, .string path =>
    some { σ with mode := .statement, statements := .imports name path :: σ.statements }
  | _, _ => none

def finish? (σ : State) : Option (Derivation .statements) :=
  match σ.mode with
  | .statement => if σ.frames.isEmpty then some (ofStatements σ.statements.reverse) else none
  | .operator c =>
    if (settle (.call c) σ.frames).2.isEmpty then
      some (ofStatements (.expression (settle (.call c) σ.frames).1 :: σ.statements).reverse)
    else none
  | _ => none

def run (σ : State) : List Terminal → Option State
  | [] => some σ
  | t :: ts => (σ.read t).bind fun σ => σ.run ts

theorem run_append (σ : State) (us ts : List Terminal) :
    σ.run (us ++ ts) = (σ.run us).bind fun σ => σ.run ts := by
  induction us generalizing σ with
  | nil => rfl
  | cons u us ih =>
    cases h : σ.read u with
    | none => simp [run, h]
    | some σ' => simp [run, h, ih]

theorem read_operator {c : Derivation .call} {e : Derivation .expression}
    {frames frames' : List Frame} (statements : List (Derivation .statement)) {t : Terminal}
    (h : settle (.call c) frames' = (e, frames)) (hc : t ≠ .callParen) (he : t ≠ .equals) :
    State.read ⟨.operator c, frames', statements⟩ t = endExpression e frames statements t := by
  simp only [State.read]
  unfold afterOperand
  split
  · contradiction
  · contradiction
  · rw [h]

end State

/-! ### What has been read -/

section Reading
open State

theorem yield_moreOf (comma : Bool) (ds : List (Derivation s)) :
    (moreOf comma ds).yield =
      ds.flatMap (fun d => .comma :: d.yield) ++ if comma then [.comma] else [] := by
  induction ds with
  | nil => cases comma <;> rfl
  | cons d ds ih => simp [moreOf, yield, ih]

def listed (ds : List (Derivation s)) : List Terminal :=
  ds.reverse.flatMap fun d => d.yield ++ [.comma]

@[simp] theorem listed_nil : listed ([] : List (Derivation s)) = [] := rfl

@[simp] theorem listed_cons (d : Derivation s) (ds : List (Derivation s)) :
    listed (d :: ds) = listed ds ++ d.yield ++ [.comma] := by
  simp [listed]

theorem comma_flatMap (ds : List (Derivation s)) :
    .comma :: ds.flatMap (fun d => d.yield ++ [.comma]) =
      ds.flatMap (fun d => .comma :: d.yield) ++ [Terminal.comma] := by
  induction ds with
  | nil => rfl
  | cons d ds ih => simp [← ih]

theorem yield_listOf_true (ds : List (Derivation s)) :
    (listOf true ds.reverse).yield = listed ds := by
  unfold listed
  cases ds.reverse with
  | nil => rfl
  | cons d es =>
    have h := comma_flatMap es
    simp [listOf, yield, yield_moreOf, h]

theorem yield_listOf_false (d : Derivation s) (ds : List (Derivation s)) :
    (listOf false (d :: ds).reverse).yield = listed ds ++ d.yield := by
  unfold listed
  rw [List.reverse_cons]
  cases ds.reverse with
  | nil => simp [listOf, moreOf, yield]
  | cons e es =>
    have h := congrArg (· ++ d.yield) (comma_flatMap es)
    simp only [List.append_assoc, List.cons_append, List.nil_append] at h
    simp [listOf, yield, yield_moreOf, h]

@[simp] theorem yield_ofStatements_append (ds es : List (Derivation .statement)) :
    (ofStatements (ds ++ es)).yield = (ofStatements ds).yield ++ (ofStatements es).yield := by
  induction ds with
  | nil => rfl
  | cons d ds ih => simp [ofStatements, yield, ih]

/-- The terminals up to the innermost open construct. The statements belong to the innermost body. -/
def context : List Frame → List (Derivation .statement) → List Terminal
  | [], statements => (ofStatements statements.reverse).yield
  | .array items :: frames, statements =>
    context frames statements ++ .openBracket :: listed items
  | .arguments callee arguments :: frames, statements =>
    context frames statements ++ callee.yield ++ .callParen :: listed arguments
  | .assignment target :: frames, statements =>
    context frames statements ++ target.yield ++ [.equals]
  | .entry entries key :: frames, statements =>
    context frames statements ++ .openBrace :: listed entries ++ [.name key, .colon]
  | .default parameters name :: frames, statements =>
    context frames statements ++ .openParen :: listed parameters ++ [.name name, .equals]
  | .body parameters outer :: frames, statements =>
    context frames outer ++ .openParen :: parameters.yield ++ [.closeParen, .arrow, .openBrace] ++
      (ofStatements statements.reverse).yield

def Mode.yield : Mode → List Terminal
  | statement | operand => []
  | operator c => c.yield
  | key entries => .openBrace :: listed entries
  | afterKey entries text => .openBrace :: listed entries ++ [.name text]
  | parameter parameters => .openParen :: listed parameters
  | afterParameter parameters name => .openParen :: listed parameters ++ [.name name]
  | arrow parameters => .openParen :: parameters.yield ++ [.closeParen]
  | brace parameters => .openParen :: parameters.yield ++ [.closeParen, .arrow]
  | importName => [.keyword .imports]
  | importFrom name => [.keyword .imports, .name name]
  | importPath name => [.keyword .imports, .name name, .keyword .origin]

def State.yield (σ : State) : List Terminal := context σ.frames σ.statements ++ σ.mode.yield

/- Statements are read at the top and directly inside of a body. -/
def Base (frames : List Frame) : Prop :=
  frames = [] ∨ ∃ parameters outer rest, frames = .body parameters outer :: rest

theorem context_cons {frames : List Frame} (h : Base frames) (d : Derivation .statement)
    (statements : List (Derivation .statement)) :
    context frames (d :: statements) = context frames statements ++ d.yield := by
  obtain rfl | ⟨parameters, outer, rest, rfl⟩ := h
  · simp [context, ofStatements, Derivation.yield]
  · simp [context, ofStatements, Derivation.yield]

def State.Placed (σ : State) : Prop :=
  match σ.mode with
  | .statement | .importName | .importFrom _ | .importPath _ => Base σ.frames
  | _ => True

theorem context_settle (e : Derivation .expression) (frames : List Frame)
    (statements : List (Derivation .statement)) :
    context (settle e frames).2 statements ++ (settle e frames).1.yield =
      context frames statements ++ e.yield := by
  fun_induction settle e frames with
  | case1 e target frames ih => simpa [context, Derivation.yield] using ih
  | case2 => rfl

variable {frames : List Frame} {statements : List (Derivation .statement)} {t : Terminal} {σ σ' : State}

theorem yield_beginOperand (h : beginOperand frames statements t = some σ') :
    σ'.yield = context frames statements ++ [t] := by
  unfold beginOperand at h
  split at h <;> cases h <;> simp [State.yield, Mode.yield, context, Derivation.yield]

theorem yield_beginStatement (h : beginStatement frames statements t = some σ') :
    σ'.yield = context frames statements ++ [t] := by
  unfold beginStatement at h
  split at h
  · split at h
    · cases h
      simp [State.yield, Mode.yield, context, Derivation.yield]
    · cases h
  · cases h
    rfl
  · exact yield_beginOperand h

theorem yield_beginItem (h : beginItem frames statements t = some σ') :
    σ'.yield = context frames statements ++ [t] := by
  unfold beginItem at h
  split at h
  · cases h
    simp [State.yield, Mode.yield, context, Derivation.yield, yield_listOf_true]
  · cases h
    simp [State.yield, Mode.yield, context, Derivation.yield, yield_listOf_true]
  · exact yield_beginOperand h

theorem yield_endExpression {e : Derivation .expression}
    (h : endExpression e frames statements t = some σ') :
    σ'.yield = context frames statements ++ e.yield ++ [t] := by
  unfold endExpression at h
  split at h
  case h_9 =>
    rw [yield_beginStatement h, context_cons (.inl rfl)]
    rfl
  case h_10 =>
    rw [yield_beginStatement h, context_cons (.inr ⟨_, _, _, rfl⟩)]
    rfl
  all_goals cases h
  all_goals simp only [State.yield, Mode.yield, context, Derivation.yield, yield_listOf_false,
    listed_cons, List.append_assoc, List.cons_append, List.nil_append, List.append_nil]

theorem yield_afterOperand {c : Derivation .call} (h : afterOperand c frames statements t = some σ') :
    σ'.yield = context frames statements ++ c.yield ++ [t] := by
  unfold afterOperand at h
  split at h
  · cases h
    simp [State.yield, Mode.yield, context]
  · cases h
    simp [State.yield, Mode.yield, context]
  · rw [yield_endExpression h, context_settle]
    rfl

theorem read_importFrom {name : String}
    (h : State.read ⟨.importFrom name, frames, statements⟩ t = some σ') :
    t = .keyword .origin ∧ σ' = ⟨.importPath name, frames, statements⟩ := by
  cases t with
  | keyword k =>
    cases k <;> cases h
    exact ⟨rfl, rfl⟩
  | _ => cases h

theorem yield_read (hp : σ.Placed) (h : σ.read t = some σ') : σ'.yield = σ.yield ++ [t] := by
  obtain ⟨mode, frames, statements⟩ := σ
  cases mode with
  | statement => simpa [State.yield, Mode.yield] using yield_beginStatement h
  | operand => simpa [State.yield, Mode.yield] using yield_beginItem h
  | operator c => simpa [State.yield, Mode.yield] using yield_afterOperand h
  | importFrom name =>
    obtain ⟨rfl, rfl⟩ := read_importFrom h
    simp [State.yield, Mode.yield]
  | importPath name =>
    cases t <;> cases h
    simp [State.yield, Mode.yield, context_cons hp, Derivation.yield]
  | _ =>
    cases t <;> cases h <;> simp only [State.yield, Mode.yield, context, Derivation.yield,
      yield_listOf_false, yield_listOf_true, ofStatements, listed_cons, List.append_assoc,
      List.cons_append, List.nil_append, List.append_nil, List.reverse_nil]

theorem placed_beginOperand (h : beginOperand frames statements t = some σ') : σ'.Placed := by
  unfold beginOperand at h
  split at h <;> cases h <;> trivial

theorem placed_beginStatement (hb : Base frames) (h : beginStatement frames statements t = some σ') :
    σ'.Placed := by
  unfold beginStatement at h
  split at h
  · split at h <;> cases h
    trivial
  · cases h
    exact hb
  · exact placed_beginOperand h

theorem placed_endExpression {e : Derivation .expression}
    (h : endExpression e frames statements t = some σ') : σ'.Placed := by
  unfold endExpression at h
  split at h
  case h_9 => exact placed_beginStatement (.inl rfl) h
  case h_10 => exact placed_beginStatement (.inr ⟨_, _, _, rfl⟩) h
  all_goals cases h
  all_goals trivial

theorem placed_read (hp : σ.Placed) (h : σ.read t = some σ') : σ'.Placed := by
  obtain ⟨mode, frames, statements⟩ := σ
  cases mode with
  | statement => exact placed_beginStatement hp h
  | operand =>
    simp only [State.read, beginItem] at h
    split at h
    · cases h
      trivial
    · cases h
      trivial
    · exact placed_beginOperand h
  | operator c =>
    simp only [State.read, afterOperand] at h
    split at h
    · cases h
      trivial
    · cases h
      trivial
    · exact placed_endExpression h
  | brace parameters =>
    cases t <;> cases h
    exact .inr ⟨_, _, _, rfl⟩
  | importFrom name =>
    obtain ⟨rfl, rfl⟩ := read_importFrom h
    exact hp
  | _ =>
    cases t <;> cases h <;> trivial

theorem yield_run {ts : List Terminal} (hp : σ.Placed) (h : σ.run ts = some σ') :
    σ'.yield = σ.yield ++ ts := by
  induction ts generalizing σ with
  | nil =>
    cases h
    simp
  | cons t ts ih =>
    obtain ⟨σ₁, h₁, h₂⟩ := Option.bind_eq_some_iff.1 h
    rw [ih (placed_read hp h₁) h₂, yield_read hp h₁, List.append_assoc]
    rfl

theorem yield_finish {d : Derivation .statements} (h : σ.finish? = some d) : d.yield = σ.yield := by
  obtain ⟨mode, frames, statements⟩ := σ
  unfold finish? at h
  split at h
  · next hm =>
    split at h
    · next hf =>
      obtain rfl : frames = [] := List.isEmpty_iff.1 hf
      cases h
      simp_all [State.yield, Mode.yield, context]
    · cases h
  · next c hm =>
    split at h
    · next hf =>
      have hs := context_settle (.call c) frames statements
      rw [List.isEmpty_iff.1 hf] at hs
      cases h
      simp_all [State.yield, Mode.yield, context, ofStatements, Derivation.yield]
    · cases h
  · cases h

end Reading

/-! ### Completing what has been read -/

section Completing
open State

def State.Completable (σ : State) : Prop := ∃ ts σ' d, σ.run ts = some σ' ∧ σ'.finish? = some d

variable {σ σ' : State} {t : Terminal}

theorem State.Completable.of_read (h : σ.read t = some σ') (hc : σ'.Completable) :
    σ.Completable := by
  obtain ⟨ts, σ₁, d, hr, hf⟩ := hc
  exact ⟨t :: ts, σ₁, d, by simp [run, h, hr], hf⟩

/- Every frame can be closed at once, so the induction is on the frames that are open. -/
theorem completable_settle (e : Derivation .expression) (frames : List Frame) {c : Derivation .call}
    {frames' : List Frame} (statements : List (Derivation .statement))
    (h : settle (.call c) frames' = settle e frames) :
    State.Completable ⟨.operator c, frames', statements⟩ := by
  induction frames generalizing e c frames' statements with
  | nil => exact ⟨[], _, _, rfl, by simp only [finish?, h]; rfl⟩
  | cons frame frames ih =>
    cases frame with
    | array items =>
      have hr := read_operator statements (t := .closeBracket) h nofun nofun
      exact .of_read hr (ih _ statements rfl)
    | arguments callee arguments =>
      have hr := read_operator statements (t := .closeParen) h nofun nofun
      exact .of_read hr (ih _ statements rfl)
    | assignment target => exact ih (.assignment target e) statements h
    | entry entries key =>
      have hr := read_operator statements (t := .closeBrace) h nofun nofun
      exact .of_read hr (ih _ statements rfl)
    | default parameters name =>
      have hr := read_operator statements (t := .closeParen) h nofun nofun
      refine .of_read hr (.of_read (t := .arrow) rfl (.of_read (t := .openBrace) rfl ?_))
      exact .of_read (t := .closeBrace) rfl (ih _ statements rfl)
    | body parameters outer =>
      have hr := read_operator statements (t := .closeBrace) h nofun nofun
      exact .of_read hr (ih _ outer rfl)

theorem completable_operator (c : Derivation .call) (frames : List Frame)
    (statements : List (Derivation .statement)) :
    State.Completable ⟨.operator c, frames, statements⟩ :=
  completable_settle (.call c) frames statements rfl

/-- Nothing that has been read is a dead end. -/
theorem completable (σ : State) : σ.Completable := by
  have hs (frames statements) : State.Completable ⟨.statement, frames, statements⟩ :=
    .of_read (t := .name "x") rfl (completable_operator _ _ _)
  have hp (path name frames statements) :
      State.Completable ⟨.importPath name, frames, statements⟩ :=
    .of_read (t := .string path) rfl (hs _ _)
  have hb (parameters frames statements) :
      State.Completable ⟨.brace parameters, frames, statements⟩ :=
    .of_read (t := .openBrace) rfl (hs _ _)
  have ha (parameters frames statements) :
      State.Completable ⟨.arrow parameters, frames, statements⟩ :=
    .of_read (t := .arrow) rfl (hb _ _ _)
  obtain ⟨mode, frames, statements⟩ := σ
  cases mode with
  | statement => exact hs _ _
  | operand => exact .of_read (t := .name "x") rfl (completable_operator _ _ _)
  | operator c => exact completable_operator _ _ _
  | key entries => exact .of_read (t := .closeBrace) rfl (completable_operator _ _ _)
  | afterKey entries key => exact .of_read (t := .closeBrace) rfl (completable_operator _ _ _)
  | parameter parameters => exact .of_read (t := .closeParen) rfl (ha _ _ _)
  | afterParameter parameters name => exact .of_read (t := .closeParen) rfl (ha _ _ _)
  | arrow parameters => exact ha _ _ _
  | brace parameters => exact hb _ _ _
  | importName =>
    exact .of_read (t := .name "x") rfl (.of_read (t := .keyword .origin) rfl (hp "" _ _ _))
  | importFrom name => exact .of_read (t := .keyword .origin) rfl (hp "" _ _ _)
  | importPath name => exact hp "" _ _ _

end Completing

/-! ### Rebuilding a tree from what it derives -/

section Rebuilding
open State

/- Where an operand may begin, `frames` being open and `statements` being complete. -/
def State.Opens (σ : State) (frames : List Frame) (statements : List (Derivation .statement)) :
    Prop :=
  ∀ t σ', beginOperand frames statements t = some σ' → σ.read t = some σ'

/- Where a statement may begin or the body may end. -/
inductive State.Boundary : State → List Frame → List (Derivation .statement) → Prop where
  | fresh (frames : List Frame) (statements : List (Derivation .statement)) :
      Boundary ⟨.statement, frames, statements⟩ frames statements
  | after {c : Derivation .call} {e : Derivation .expression} {frames frames' : List Frame}
      (statements : List (Derivation .statement)) (h : settle (.call c) frames' = (e, frames))
      (hf : Base frames) :
      Boundary ⟨.operator c, frames', statements⟩ frames (.expression e :: statements)

variable {σ : State} {frames : List Frame} {statements : List (Derivation .statement)}

theorem opens_operand (frames : List Frame) (statements : List (Derivation .statement)) :
    State.Opens ⟨.operand, frames, statements⟩ frames statements := by
  intro t σ' h
  cases t <;> first | exact h | cases h

theorem read_boundary (h : σ.Boundary frames statements) {t : Terminal} {σ' : State}
    (hr : beginStatement frames statements t = some σ') : σ.read t = some σ' := by
  cases h with
  | fresh => exact hr
  | after statements hs hf =>
    have hc : t ≠ .callParen := by
      rintro rfl
      cases hr
    have he : t ≠ .equals := by
      rintro rfl
      cases hr
    rw [read_operator statements hs hc he]
    obtain rfl | ⟨parameters, outer, rest, rfl⟩ := hf
    · exact hr
    · exact hr

theorem State.Boundary.opens (h : σ.Boundary frames statements) : σ.Opens frames statements := by
  intro t σ' ht
  apply read_boundary h
  cases t with
  | keyword k => cases k <;> first | exact ht | cases ht
  | _ => first | exact ht | cases ht

def pending : Derivation .expression → List Frame → List (Derivation .statement) → State
  | .call c, frames, statements => ⟨.operator c, frames, statements⟩
  | .assignment target value, frames, statements =>
    pending value (.assignment target :: frames) statements

theorem pending_eq : ∀ (e : Derivation .expression) (frames : List Frame)
    (statements : List (Derivation .statement)),
    ∃ c frames', pending e frames statements = ⟨.operator c, frames', statements⟩ ∧
      settle (.call c) frames' = settle e frames
  | .call c, frames, statements => ⟨c, frames, by rw [pending], rfl⟩
  | .assignment target value, frames, statements => by
    rw [pending]
    exact pending_eq value (.assignment target :: frames) statements

/-- A list under construction: the state after some items and their commas, the terminal that closes
the list, and the state after it. -/
structure Slot (s : Symbol) where
  state : List (Derivation s) → State
  close : Terminal
  closed : Derivation (.list s) → State
  read_close : ∀ ds, (state ds).read close = some (closed (listOf true ds.reverse))

def Slot.Ends (slot : Slot s) (σ : State) (ds : List (Derivation s)) : Prop :=
  σ.read .comma = some (slot.state ds) ∧
    σ.read slot.close = some (slot.closed (listOf false ds.reverse))

def Slot.Fits (slot : Slot s) (d : Derivation s) : Prop :=
  ∀ ds, ∃ σ, (slot.state ds).run d.yield = some σ ∧ slot.Ends σ (d :: ds)

theorem run_of_run {σ σ' : State} {us ts : List Terminal} (h : σ.run us = some σ') :
    σ.run (us ++ ts) = σ'.run ts := by
  simp [run_append, h]

theorem run_of_read {σ σ' : State} {t : Terminal} {ts : List Terminal} (h : σ.read t = some σ') :
    σ.run (t :: ts) = σ'.run ts := by
  simp [run, h]

theorem Slot.run_moreOf (slot : Slot s) (comma : Bool) {es : List (Derivation s)}
    (he : ∀ e ∈ es, slot.Fits e) {σ : State} {ds : List (Derivation s)} (hs : slot.Ends σ ds) :
    σ.run ((moreOf comma es).yield ++ [slot.close]) =
      some (slot.closed (listOf comma (ds.reverse ++ es))) := by
  induction es generalizing σ ds with
  | nil =>
    cases comma with
    | false => simp [moreOf, Derivation.yield, run, hs.2]
    | true => simp [moreOf, Derivation.yield, run, hs.1, slot.read_close]
  | cons e es ih =>
    obtain ⟨σ₁, hr, hs₁⟩ := he e (by simp) ds
    have := ih (fun e h => he e (by simp [h])) hs₁
    simp only [moreOf, Derivation.yield, List.cons_append, List.append_assoc, run, hs.1,
      Option.bind_some, run_of_run hr, this]
    simp

theorem Slot.run_listOf (slot : Slot s) (comma : Bool) {ds : List (Derivation s)}
    (hd : ∀ d ∈ ds, slot.Fits d) :
    (slot.state []).run ((listOf comma ds).yield ++ [slot.close]) =
      some (slot.closed (listOf comma ds)) := by
  cases ds with
  | nil => simp [listOf, Derivation.yield, run, slot.read_close]
  | cons d ds =>
    obtain ⟨σ, hr, hs⟩ := hd d (by simp) []
    have := slot.run_moreOf comma (fun e h => hd e (List.mem_cons_of_mem d h)) hs
    simpa [listOf, Derivation.yield, run_of_run hr] using this

def arraySlot (frames : List Frame) (statements : List (Derivation .statement)) :
    Slot .expression where
  state ds := ⟨.operand, .array ds :: frames, statements⟩
  close := .closeBracket
  closed d := ⟨.operator (.atom (.array d)), frames, statements⟩
  read_close _ := rfl

def argumentsSlot (callee : Derivation .call) (frames : List Frame)
    (statements : List (Derivation .statement)) : Slot .expression where
  state ds := ⟨.operand, .arguments callee ds :: frames, statements⟩
  close := .closeParen
  closed d := ⟨.operator (.invocation callee d), frames, statements⟩
  read_close _ := rfl

def parameterSlot (frames : List Frame) (statements : List (Derivation .statement)) :
    Slot .parameter where
  state ds := ⟨.parameter ds, frames, statements⟩
  close := .closeParen
  closed d := ⟨.arrow d, frames, statements⟩
  read_close _ := rfl

def entrySlot (frames : List Frame) (statements : List (Derivation .statement)) : Slot .entry where
  state ds := ⟨.key ds, frames, statements⟩
  close := .closeBrace
  closed d := ⟨.operator (.atom (.object d)), frames, statements⟩
  read_close _ := rfl

/- What it means that the tree of a symbol is rebuilt. Where operands begin, an expression leaves its
pending state; at a boundary, a statement leads to the next boundary. -/
def RebuildsCall (c : Derivation .call) : Prop :=
  ∀ {σ frames statements}, State.Opens σ frames statements →
    σ.run c.yield = some ⟨.operator c, frames, statements⟩

def RebuildsExpression (e : Derivation .expression) : Prop :=
  ∀ {σ frames statements}, State.Opens σ frames statements →
    σ.run e.yield = some (pending e frames statements)

def RebuildsStatement (d : Derivation .statement) : Prop :=
  ∀ {σ frames statements}, Base frames → State.Boundary σ frames statements →
    ∃ σ', σ.run d.yield = some σ' ∧ σ'.Boundary frames (d :: statements)

def Rebuilds : {s : Symbol} → Derivation s → Prop
  | .statements, d => ∃ ds, d = ofStatements ds ∧ ∀ d ∈ ds, RebuildsStatement d
  | .statement, d => RebuildsStatement d
  | .expression, e => RebuildsExpression e
  | .call, c => RebuildsCall c
  | .atom, a => RebuildsCall (.atom a)
  | .parameter, d => ∀ frames statements, (parameterSlot frames statements).Fits d
  | .entry, d => ∀ frames statements, (entrySlot frames statements).Fits d
  | .list _, d => ∃ comma ds, d = listOf comma ds ∧ ∀ d ∈ ds, Rebuilds d
  | .more _, d => ∃ comma ds, d = moreOf comma ds ∧ ∀ d ∈ ds, Rebuilds d

theorem settle_base (e : Derivation .expression) (h : Base frames) : settle e frames = (e, frames) := by
  obtain rfl | ⟨parameters, outer, rest, rfl⟩ := h <;> rfl

theorem read_pending {e : Derivation .expression} (h : settle e frames = (e, frames)) {t : Terminal}
    (hc : t ≠ .callParen) (he : t ≠ .equals) :
    (pending e frames statements).read t = endExpression e frames statements t := by
  obtain ⟨c, frames', hp, hs⟩ := pending_eq e frames statements
  rw [hp, read_operator statements (hs.trans h) hc he]

theorem fits_array {e : Derivation .expression} (h : RebuildsExpression e) :
    (arraySlot frames statements).Fits e := by
  intro ds
  refine ⟨_, h (opens_operand _ _), ?_, ?_⟩
  · exact read_pending rfl nofun nofun
  · exact read_pending rfl nofun nofun

theorem fits_arguments {callee : Derivation .call} {e : Derivation .expression}
    (h : RebuildsExpression e) : (argumentsSlot callee frames statements).Fits e := by
  intro ds
  refine ⟨_, h (opens_operand _ _), ?_, ?_⟩
  · exact read_pending rfl nofun nofun
  · exact read_pending rfl nofun nofun

theorem run_ofStatements {ds : List (Derivation .statement)} (hd : ∀ d ∈ ds, RebuildsStatement d)
    (hb : Base frames) (h : σ.Boundary frames statements) :
    ∃ σ', σ.run (ofStatements ds).yield = some σ' ∧
      σ'.Boundary frames (ds.reverse ++ statements) := by
  induction ds generalizing σ statements with
  | nil => exact ⟨σ, rfl, h⟩
  | cons d ds ih =>
    obtain ⟨σ₁, h₁, hb₁⟩ := hd d (by simp) hb h
    obtain ⟨σ₂, h₂, hb₂⟩ := ih (fun d h => hd d (by simp [h])) hb₁
    refine ⟨σ₂, ?_, by simpa using hb₂⟩
    rw [ofStatements, Derivation.yield, run_of_run h₁, h₂]

theorem rebuilds_leaf {a : Derivation .atom} {t : Terminal} (hy : a.yield = [t])
    (h : ∀ frames statements,
      beginOperand frames statements t = some ⟨.operator (.atom a), frames, statements⟩) :
    RebuildsCall (.atom a) := by
  intro σ frames statements ho
  have hr := ho t _ (h frames statements)
  simp [Derivation.yield, hy, run, hr]

theorem rebuilds_function {parameters : Derivation (.list .parameter)}
    {body : Derivation .statements} (hp : Rebuilds parameters) (hb : Rebuilds body) :
    RebuildsCall (.atom (.function parameters body)) := by
  intro σ frames statements ho
  obtain ⟨comma, ps, rfl, hps⟩ := hp
  obtain ⟨ds, rfl, hds⟩ := hb
  have h₁ : σ.read .openParen = some ⟨.parameter [], frames, statements⟩ := ho _ _ rfl
  have h₂ : State.run ⟨.parameter [], frames, statements⟩
      ((listOf comma ps).yield ++ [.closeParen]) =
      some ⟨.arrow (listOf comma ps), frames, statements⟩ :=
    (parameterSlot frames statements).run_listOf comma fun p h => hps p h _ _
  obtain ⟨σ', h₃, hb⟩ := run_ofStatements hds (.inr ⟨listOf comma ps, statements, frames, rfl⟩)
    (.fresh (.body (listOf comma ps) statements :: frames) [])
  have h₄ := read_boundary hb (t := .closeBrace) rfl
  have h : σ.run (.openParen :: (((listOf comma ps).yield ++ [.closeParen]) ++
      .arrow :: .openBrace :: ((ofStatements ds).yield ++ [.closeBrace]))) =
      some ⟨.operator (.atom (.function (listOf comma ps) (ofStatements ds))), frames,
        statements⟩ := by
    rw [run_of_read h₁, run_of_run h₂, run_of_read rfl, run_of_read rfl, run_of_run h₃,
      run_of_read h₄]
    simp [run]
  simpa [Derivation.yield] using h

theorem rebuilds_object {entries : Derivation (.list .entry)} (h : Rebuilds entries) :
    RebuildsCall (.atom (.object entries)) := by
  intro σ frames statements ho
  obtain ⟨comma, es, rfl, hes⟩ := h
  have h₁ : σ.read .openBrace = some ⟨.key [], frames, statements⟩ := ho _ _ rfl
  have h₂ := (entrySlot frames statements).run_listOf comma fun e h => hes e h _ _
  rw [Derivation.yield, Derivation.yield, List.cons_append, run_of_read h₁]
  exact h₂

theorem rebuilds_array {items : Derivation (.list .expression)} (h : Rebuilds items) :
    RebuildsCall (.atom (.array items)) := by
  intro σ frames statements ho
  obtain ⟨comma, es, rfl, hes⟩ := h
  have h₁ : σ.read .openBracket = some ⟨.operand, .array [] :: frames, statements⟩ := ho _ _ rfl
  have h₂ := (arraySlot frames statements).run_listOf comma fun e h => fits_array (hes e h)
  rw [Derivation.yield, Derivation.yield, List.cons_append, run_of_read h₁]
  exact h₂

theorem rebuilds_invocation {callee : Derivation .call} {arguments : Derivation (.list .expression)}
    (hc : RebuildsCall callee) (ha : Rebuilds arguments) :
    RebuildsCall (.invocation callee arguments) := by
  intro σ frames statements ho
  obtain ⟨comma, es, rfl, hes⟩ := ha
  have h₁ : State.read ⟨.operator callee, frames, statements⟩ .callParen =
      some ⟨.operand, .arguments callee [] :: frames, statements⟩ := rfl
  have h₂ := (argumentsSlot callee frames statements).run_listOf comma
    fun e h => fits_arguments (hes e h)
  rw [Derivation.yield, List.append_assoc, run_of_run (hc ho), List.cons_append, run_of_read h₁]
  exact h₂

theorem rebuilds_statement {e : Derivation .expression} (h : RebuildsExpression e) :
    RebuildsStatement (.expression e) := by
  intro σ frames statements hb hσ
  obtain ⟨c, frames', hp, hs⟩ := pending_eq e frames statements
  refine ⟨pending e frames statements, h hσ.opens, ?_⟩
  rw [hp]
  exact .after statements (hs.trans (settle_base e hb)) hb

theorem rebuilds_imports (name path : String) : RebuildsStatement (.imports name path) := by
  intro σ frames statements hb hσ
  have h := read_boundary hσ (t := .keyword .imports) rfl
  refine ⟨⟨.statement, frames, .imports name path :: statements⟩, ?_, .fresh _ _⟩
  rw [Derivation.yield, run_of_read h]
  rfl

theorem rebuilds_default {name : String} {e : Derivation .expression} (h : RebuildsExpression e) :
    (parameterSlot frames statements).Fits (.default name e) := by
  intro ds
  refine ⟨pending e (.default ds name :: frames) statements, h (opens_operand _ _), ?_, ?_⟩
  · exact read_pending rfl nofun nofun
  · exact read_pending rfl nofun nofun

theorem rebuilds_pair {key : String} {e : Derivation .expression} (h : RebuildsExpression e) :
    (entrySlot frames statements).Fits (.pair key e) := by
  intro ds
  refine ⟨pending e (.entry ds key :: frames) statements, h (opens_operand _ _), ?_, ?_⟩
  · exact read_pending rfl nofun nofun
  · exact read_pending rfl nofun nofun

theorem rebuilds_assignment {target : Derivation .call} {value : Derivation .expression}
    (ht : RebuildsCall target) (hv : RebuildsExpression value) :
    RebuildsExpression (.assignment target value) := by
  intro σ frames statements ho
  have h : State.read ⟨.operator target, frames, statements⟩ .equals =
      some ⟨.operand, .assignment target :: frames, statements⟩ := rfl
  rw [Derivation.yield, run_of_run (ht ho), run_of_read h, pending]
  exact hv (opens_operand _ _)

theorem rebuilds (d : Derivation s) : Rebuilds d := by
  induction d with
  | noStatement => exact ⟨[], rfl, nofun⟩
  | statement first rest hf hr =>
    obtain ⟨ds, rfl, hds⟩ := hr
    exact ⟨first :: ds, rfl, List.forall_mem_cons.2 ⟨hf, hds⟩⟩
  | imports name path => exact rebuilds_imports name path
  | expression e he => exact rebuilds_statement he
  | assignment target value ht hv => exact rebuilds_assignment ht hv
  | call c hc =>
    intro σ frames statements ho
    rw [pending]
    exact hc ho
  | atom a ha => exact ha
  | invocation callee arguments hc ha => exact rebuilds_invocation hc ha
  | function parameters body hp hb => exact rebuilds_function hp hb
  | object entries h => exact rebuilds_object h
  | array items h => exact rebuilds_array h
  | identifier text => exact rebuilds_leaf rfl fun _ _ => rfl
  | string text => exact rebuilds_leaf rfl fun _ _ => rfl
  | float whole fraction => exact rebuilds_leaf rfl fun _ _ => rfl
  | int digits => exact rebuilds_leaf rfl fun _ _ => rfl
  | boolean value => exact rebuilds_leaf rfl fun _ _ => rfl
  | parameter name => exact fun _ _ _ => ⟨_, rfl, rfl, rfl⟩
  | default name value hv => exact fun _ _ => rebuilds_default hv
  | pair key value hv => exact fun _ _ => rebuilds_pair hv
  | shorthand key => exact fun _ _ _ => ⟨_, rfl, rfl, rfl⟩
  | noItem => exact ⟨false, [], rfl, nofun⟩
  | firstItem first rest hf hr =>
    obtain ⟨comma, ds, rfl, hds⟩ := hr
    exact ⟨comma, first :: ds, rfl, List.forall_mem_cons.2 ⟨hf, hds⟩⟩
  | noMore => exact ⟨false, [], rfl, nofun⟩
  | lastComma => exact ⟨true, [], rfl, nofun⟩
  | next item rest hi hr =>
    obtain ⟨comma, ds, rfl, hds⟩ := hr
    exact ⟨comma, item :: ds, rfl, List.forall_mem_cons.2 ⟨hi, hds⟩⟩

theorem finish_boundary (h : σ.Boundary [] statements) :
    σ.finish? = some (ofStatements statements.reverse) := by
  cases h with
  | fresh => rfl
  | after statements hs hf => simp [finish?, hs]

theorem run_yield (d : Derivation .statements) :
    ∃ σ, State.start.run d.yield = some σ ∧ σ.finish? = some d := by
  obtain ⟨ds, rfl, hds⟩ := rebuilds d
  obtain ⟨σ, hr, hb⟩ := run_ofStatements hds (.inl rfl) (.fresh [] [])
  refine ⟨σ, hr, ?_⟩
  simpa using finish_boundary hb

end Rebuilding

/-! ### The grammar -/

theorem placed_start : State.start.Placed := .inl rfl

/-- The machine accepts exactly what a tree derives, and finds the tree. -/
theorem run_finish_iff {ts : List Terminal} {d : Derivation .statements} :
    (∃ σ, State.start.run ts = some σ ∧ σ.finish? = some d) ↔ d.yield = ts := by
  constructor
  · rintro ⟨σ, hr, hf⟩
    rw [yield_finish hf, yield_run placed_start hr]
    rfl
  · rintro rfl
    exact run_yield d

/-- The grammar is unambiguous. -/
theorem yield_injective {d d' : Derivation .statements} (h : d.yield = d'.yield) : d = d' := by
  obtain ⟨σ, hr, hf⟩ := run_yield d
  obtain ⟨σ', hr', hf'⟩ := run_yield d'
  rw [h, hr'] at hr
  cases hr
  rw [hf'] at hf
  cases hf
  rfl

/-- The terminal `t` may come right after `before`: some program goes on like this. -/
def CanFollow (before : List Terminal) (t : Terminal) : Prop :=
  ∃ (d : Derivation .statements) (rest : List Terminal), d.yield = before ++ t :: rest

/-- The machine accepts a terminal exactly where it may come next. -/
theorem canFollow_iff {before : List Terminal} {σ : State} (h : State.start.run before = some σ)
    (t : Terminal) : CanFollow before t ↔ (σ.read t).isSome := by
  constructor
  · rintro ⟨d, rest, hd⟩
    obtain ⟨σ', hr, -⟩ := run_yield d
    rw [hd, run_of_run h] at hr
    cases hs : σ.read t with
    | none => simp [State.run, hs] at hr
    | some σ₁ => rfl
  · intro hs
    obtain ⟨σ₁, hσ⟩ := Option.isSome_iff_exists.1 hs
    obtain ⟨rest, σ₂, d, hr, hf⟩ := completable σ₁
    refine ⟨d, rest, run_finish_iff.1 ⟨σ₂, ?_, hf⟩⟩
    rw [run_of_run h, run_of_read hσ, hr]

end AwaitScript.Grammar
