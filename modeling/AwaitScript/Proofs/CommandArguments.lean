import AwaitScript.Command.Options
import AwaitScript.Proofs.Traversal

/-!
Which command lines ask for a run, and how a change of the arguments changes what they ask for. The
arguments that give an output can be taken out of a command line: what is left asks for the same run
without the output.
-/

namespace AwaitScript.Command

namespace Progress

def map (g : Options → Options) (p : Progress) : Progress := { p with options := g p.options }

def settle (p : Progress) (text : Text) : Progress :=
  { p with options.file := some text, settled := true }

end Progress

section
variable [Edition]

theorem applyAll_eq_some {p p' : Progress} {actions : List Action} (h : applyAll p actions = some p') :
    p'.settled = p.settled ∧ p'.extras = p.extras := by
  fun_induction applyAll p actions with
  | case1 p => cases h; simp
  | case2 => cases h
  | case3 p action actions _ ih => simpa using ih h

theorem applyAll_append (p : Progress) (actions others : List Action) :
    applyAll p (actions ++ others) = (applyAll p actions).bind (applyAll · others) := by
  fun_induction applyAll p actions with
  | case1 => rfl
  | case2 => rfl
  | case3 p action actions hne ih => rw [List.cons_append, applyAll, ih]; exact hne

theorem applyAll_map {g : Options → Options} {actions : List Action}
    (hg : ∀ action ∈ actions, ∀ options, g (action.apply options) = action.apply (g options))
    (p : Progress) : applyAll (p.map g) actions = (applyAll p actions).map (Progress.map g) := by
  fun_induction applyAll p actions with
  | case1 => rfl
  | case2 => rfl
  | case3 p action actions hne ih =>
    rw [applyAll]
    · rw [← ih fun other hother => hg other (List.mem_cons_of_mem _ hother)]
      simp only [Progress.map, hg action List.mem_cons_self]
    · exact hne

theorem applyAll_map_some {g : Options → Options} {actions : List Action}
    (hg : ∀ action ∈ actions, ∀ options, g (action.apply options) = action.apply (g options))
    {p p' : Progress} (h : applyAll p actions = some p') :
    applyAll (p.map g) actions = some (p'.map g) := by
  rw [applyAll_map hg, h, Option.map_some]

end

theorem extras_of_readNames {p : Progress} {args : List Argument}
    (h : (readNames p args).extras = []) : p.extras = [] := by
  fun_induction readNames p args <;> simp_all

theorem readNames_map {g : Options → Options}
    (hg : ∀ (p : Progress) (text : Text), (p.settle text).map g = (p.map g).settle text)
    (p : Progress) (args : List Argument) : readNames (p.map g) args = (readNames p args).map g := by
  fun_induction readNames p args
  case case1 => rfl
  case case2 p text rest hsettled ih =>
    rw [readNames, if_pos (show (p.map g).settled = true from hsettled), ← ih]
    rfl
  case case3 p text rest hsettled ih =>
    rw [readNames, if_neg (show ¬ (p.map g).settled = true from hsettled), ← ih]
    exact congrArg (readNames · rest) (hg p text).symm
  case case4 p head rest hne ih => rw [readNames, ih]; exact hne

theorem finish_eq_run_iff {p : Progress} {options : Options} :
    readArguments.finish p = .ok (.run options) ↔ p.extras = [] ∧ p.options = options := by
  unfold readArguments.finish
  split <;> simp_all

section
variable [Edition]

/-- The command lines that ask for a run, from some progress on: options with their values, one file
name at most, and a separator only after the file name or before it, with no more options. -/
inductive Accepts : Progress → List Argument → Options → Prop
  | done (p : Progress) : Accepts p [] p.options
  | file {p : Progress} {text : Text} {rest : List Argument} {options : Options} :
    p.settled = false → Accepts (p.settle text) rest options →
      Accepts p (.name text :: rest) options
  | fileSeparator {p : Progress} {text : Text} {names : List Argument} :
    p.settled = false → (readNames (p.settle text) names).extras = [] →
      Accepts p (.name text :: .separator :: names) (readNames (p.settle text) names).options
  | separator {p : Progress} {names : List Argument} :
    p.settled = false → (readNames p names).extras = [] →
      Accepts p (.separator :: names) (readNames p names).options
  | complete {p p' : Progress} {o : Opt} {bundled : Bool} {attached : Option Text}
    {actions : List Action} {rest : List Argument} {options : Options} :
    bundle o bundled attached = .ok ⟨actions, .nothing⟩ → applyAll p actions = some p' →
      Accepts p' rest options → Accepts p (.option o bundled attached :: rest) options
  | pending {p p' : Progress} {o next : Opt} {bundled : Bool} {attached : Option Text}
    {actions : List Action} {text : Text} {rest : List Argument} {options : Options} :
    bundle o bundled attached = .ok ⟨actions, .pending next⟩ →
      applyAll p (actions ++ [.value next text]) = some p' → Accepts p' rest options →
      Accepts p (.option o bundled attached :: .name text :: rest) options

theorem accepts_of_readArguments {p : Progress} {args : List Argument} {options : Options}
    (h : readArguments p args = .ok (.run options)) : p.extras = [] ∧ Accepts p args options := by
  fun_induction readArguments p args
  case case1 p hextras =>
    cases h
    exact ⟨hextras, .done p⟩
  case case3 => cases extras_of_readNames (finish_eq_run_iff.1 h).1
  case case4 p text names hsettled =>
    obtain ⟨hextras, rfl⟩ := finish_eq_run_iff.1 h
    refine ⟨?_, .fileSeparator (Bool.eq_false_iff.2 hsettled) hextras⟩
    simpa using extras_of_readNames hextras
  case case5 ih => cases (ih h).1
  case case6 p text rest _ hsettled ih =>
    exact ⟨(ih h).1, .file (Bool.eq_false_iff.2 hsettled) (ih h).2⟩
  case case7 => cases extras_of_readNames (finish_eq_run_iff.1 h).1
  case case8 p names hsettled =>
    obtain ⟨hextras, rfl⟩ := finish_eq_run_iff.1 h
    exact ⟨extras_of_readNames hextras, .separator (Bool.eq_false_iff.2 hsettled) hextras⟩
  case case9 ih => cases (ih h).1
  case case12 p _ _ _ rest actions hbundle p' happly ih =>
    obtain ⟨hextras, hrest⟩ := ih h
    exact ⟨(applyAll_eq_some happly).2 ▸ hextras, .complete hbundle happly hrest⟩
  case case14 ih => cases (ih h).1
  case case16 p _ _ _ actions next hbundle text rest p' happly ih =>
    obtain ⟨hextras, hrest⟩ := ih h
    exact ⟨(applyAll_eq_some happly).2 ▸ hextras, .pending hbundle happly hrest⟩
  all_goals cases h

theorem Accepts.head_ne_separator {p : Progress} {names : List Argument} {options : Options}
    (hp : p.settled = true) : ¬ Accepts p (.separator :: names) options := by
  rintro (_ | _ | _ | ⟨hsettled, _⟩)
  rw [hp] at hsettled
  cases hsettled

theorem Accepts.readArguments_eq {p : Progress} {args : List Argument} {options : Options}
    (hp : p.extras = []) (h : Accepts p args options) :
    readArguments p args = .ok (.run options) := by
  induction h with
  | done p => simp [readArguments, hp]
  | @file p text rest options hsettled hrest ih =>
    rw [← ih hp, readArguments]
    · simp only [hsettled, Bool.false_eq_true, if_false, Progress.settle]
    · rintro names rfl
      exact head_ne_separator rfl hrest
  | fileSeparator hsettled hextras | separator hsettled hextras =>
    rw [readArguments, if_neg (by simp [hsettled])]
    exact finish_eq_run_iff.2 ⟨hextras, rfl⟩
  | complete hbundle happly _ ih =>
    simpa [readArguments, hbundle, happly] using ih ((applyAll_eq_some happly).2.trans hp)
  | pending hbundle happly _ ih =>
    simpa [readArguments, hbundle, happly] using ih ((applyAll_eq_some happly).2.trans hp)

/-- Once the file name is settled, a change of the options that no action interferes with can be made
before or after the rest of the command line. -/
theorem Accepts.map {g : Options → Options}
    (hg : ∀ (action : Action) options, g (action.apply options) = action.apply (g options))
    {p : Progress} {args : List Argument} {options : Options} (h : Accepts p args options)
    (hp : p.settled = true) : Accepts (p.map g) args (g options) := by
  induction h with
  | done p => exact .done (p.map g)
  | file hsettled | fileSeparator hsettled | separator hsettled => simp [hp] at hsettled
  | complete hbundle happly _ ih =>
    exact .complete hbundle (applyAll_map_some (fun action _ => hg action) happly)
      (ih ((applyAll_eq_some happly).1.trans hp))
  | pending hbundle happly _ ih =>
    exact .pending hbundle (applyAll_map_some (fun action _ => hg action) happly)
      (ih ((applyAll_eq_some happly).1.trans hp))

theorem parse_eq_run_iff {argv : List Text} {options : Options} :
    parse argv = .ok (.run options) ↔
      (∃ args, classifyAll argv = .ok args ∧ Accepts {} args options) ∧
        (options.stats && (options.fromAst || options.astOnly || options.emissionOnly)) = false := by
  have hread : ∀ args, readArguments {} args = .ok (.run options) ↔ Accepts {} args options :=
    fun args => ⟨fun h => (accepts_of_readArguments h).2, Accepts.readArguments_eq rfl⟩
  simp only [parse, bind_eq_ok_iff, ← hread]
  constructor
  · rintro ⟨args, hargs, request, hrequest, h⟩
    cases request with
    | help => cases h
    | run options =>
      dsimp only at h
      split at h <;> cases h
      rename_i hstats
      exact ⟨⟨args, hargs, hrequest⟩, Bool.eq_false_iff.2 hstats⟩
  · rintro ⟨⟨args, hargs, hrequest⟩, hstats⟩
    exact ⟨args, hargs, .run options, hrequest, by simp [hstats]; rfl⟩

theorem classify_ne_separator (text : Text) : classify text ≠ .ok .separator := by
  intro h
  unfold classify classifyLong classifyUnknown at h
  repeat' split at h
  all_goals cases h

/-- A command line and its arguments: nothing, a separator with names after it, or one argument more. -/
theorem classifyAll_cases {argv : List Text} {args : List Argument}
    (h : classifyAll argv = .ok args) :
    argv = [] ∧ args = [] ∨
      (∃ texts, argv = Text.ofString "--" :: texts ∧ args = .separator :: texts.map .name) ∨
      ∃ text texts argument rest, argv = text :: texts ∧ args = argument :: rest ∧
        classify text = .ok argument ∧ classifyAll texts = .ok rest := by
  cases argv with
  | nil =>
    cases h
    exact .inl ⟨rfl, rfl⟩
  | cons text texts =>
    rw [classifyAll] at h
    split at h
    case isTrue htext =>
      cases h
      exact .inr (.inl ⟨texts, by rw [htext], rfl⟩)
    case isFalse =>
      obtain ⟨argument, hargument, h⟩ := bind_eq_ok_iff.1 h
      obtain ⟨rest, hrest, h⟩ := bind_eq_ok_iff.1 h
      cases h
      exact .inr (.inr ⟨text, texts, argument, rest, rfl, rfl, hargument, hrest⟩)

theorem classifyAll_eq_nil {argv : List Text} (h : classifyAll argv = .ok []) : argv = [] := by
  rcases classifyAll_cases h with ⟨hargv, -⟩ | ⟨_, -, hargs⟩ | ⟨_, _, _, _, -, hargs, -⟩
  · exact hargv
  · cases hargs
  · cases hargs

theorem classifyAll_eq_separator {argv : List Text} {names : List Argument}
    (h : classifyAll argv = .ok (.separator :: names)) : ∃ texts, argv = Text.ofString "--" :: texts := by
  rcases classifyAll_cases h with ⟨-, hargs⟩ | ⟨texts, hargv, -⟩ | ⟨text, _, _, _, -, hargs, hhead, -⟩
  · cases hargs
  · exact ⟨texts, hargv⟩
  · cases hargs
    exact absurd hhead (classify_ne_separator text)

theorem classifyAll_eq_cons {argv : List Text} {argument : Argument} {args : List Argument}
    (h : classifyAll argv = .ok (argument :: args)) (hne : argument ≠ .separator) :
    ∃ text texts, argv = text :: texts ∧ classify text = .ok argument ∧
      classifyAll texts = .ok args := by
  rcases classifyAll_cases h with ⟨-, hargs⟩ | ⟨_, -, hargs⟩ | ⟨text, texts, _, _, hargv, hargs, hrest⟩
  · cases hargs
  · cases hargs
    exact absurd rfl hne
  · cases hargs
    exact ⟨text, texts, hargv, hrest⟩

/-- Taken for itself, the separator would be short for several options. -/
theorem ne_separator {text : Text} {argument : Argument} (h : classify text = .ok argument) :
    text ≠ "--" := by
  rintro rfl
  have hseparator : (classify "--").isOk = false := rfl
  rw [h] at hseparator
  cases hseparator

theorem classifyAll_cons {text : Text} {texts : List Text} {argument : Argument}
    {args : List Argument} (h : classify text = .ok argument)
    (hrest : classifyAll texts = .ok args) : classifyAll (text :: texts) = .ok (argument :: args) := by
  rw [classifyAll, if_neg (ne_separator h), h, hrest]
  rfl

/-! ### A tree in place of the source -/

def readTree (tree : Text) (options : Options) : Options :=
  { options with file := some tree, fromAst := true }

theorem readTree_apply (tree : Text) (action : Action) (options : Options) :
    readTree tree (action.apply options) = action.apply (readTree tree options) := by
  cases action with
  | flag o => cases o <;> rfl
  | value o text => cases o <;> rfl

theorem parse_fromAst {file tree : Text} {opts : List Text} {options : Options}
    (hfile : classify file = .ok (.name file)) (htree : classify tree = .ok (.name tree))
    (hopts : Text.ofString "--" ∉ opts) (h : parse (file :: opts) = .ok (.run options))
    (hstats : options.stats = false) :
    parse (tree :: "--from-ast" :: opts) = .ok (.run (readTree tree options)) := by
  obtain ⟨⟨args, hargs, haccepts⟩, -⟩ := parse_eq_run_iff.1 h
  rw [classifyAll, if_neg (ne_separator hfile), hfile] at hargs
  obtain ⟨_, hname, hargs⟩ := bind_eq_ok_iff.1 hargs
  obtain ⟨rest, hrest, hargs⟩ := bind_eq_ok_iff.1 hargs
  cases hname
  cases hargs
  have hflag : classify "--from-ast" = .ok (.option .fromAst false none) := rfl
  refine parse_eq_run_iff.2 ⟨⟨_, classifyAll_cons htree (classifyAll_cons hflag hrest), ?_⟩,
    by simp [readTree, hstats]⟩
  cases haccepts with
  | file _ haccepts =>
    exact .file rfl (.complete rfl rfl (haccepts.map (readTree_apply tree) rfl))
  | fileSeparator =>
    obtain ⟨texts, rfl⟩ := classifyAll_eq_separator hrest
    exact absurd List.mem_cons_self hopts

theorem parse_storeTree {file tree : Text} (hfile : classify file = .ok (.name file))
    (htree : classify tree = .ok (.name tree)) :
    parse [file, "--ast-only", "-o", tree] =
      .ok (.run { file := some file, astOnly := true, output := some tree }) := by
  have hast : classify "--ast-only" = .ok (.option .astOnly false none) := rfl
  have hout : classify "-o" = .ok (.option .output true none) := rfl
  have haccepts : Accepts {}
      [.name file, .option .astOnly false none, .option .output true none, .name tree]
      { file := some file, astOnly := true, output := kept? tree } :=
    .file rfl (.complete rfl rfl (.pending rfl rfl (.done _)))
  rw [show kept? tree = some tree by simp [kept?, ne_separator htree]] at haccepts
  exact parse_eq_run_iff.2 ⟨⟨_, classifyAll_cons hfile (classifyAll_cons hast (classifyAll_cons hout
    (classifyAll_cons htree rfl))), haccepts⟩, rfl⟩

end

/-! ### The output taken out -/

def Opt.spelling (o : Opt) : Text :=
  ((spellings.find? fun (spelling, other) => other = o && "--".toList.isPrefixOf spelling.toList).map
    Prod.fst).getD ""

def Action.isOutput : Action → Bool
  | .value .output _ => true
  | _ => false

def flagArguments (actions : List Action) : List Text :=
  actions.filterMap fun
    | .flag o => some o.spelling
    | .value _ _ => none

def clearOutput (options : Options) : Options := { options with output := none }

inductive IsBundle : Bundle → Prop
  | flags (flags : List Opt) (remainder : Remainder) : (∀ o ∈ flags, o.takesValue = false) →
    IsBundle ⟨flags.map .flag, remainder⟩
  | value (flags : List Opt) (o : Opt) (text : Text) : (∀ o ∈ flags, o.takesValue = false) →
    IsBundle ⟨flags.map .flag ++ [.value o text], .nothing⟩

theorem IsBundle.cons {o : Opt} (ho : o.takesValue = false) {b : Bundle} (h : IsBundle b) :
    IsBundle (b.cons o) := by
  cases h with
  | flags flags remainder hflags =>
    exact .flags (o :: flags) remainder (by simpa [ho] using hflags)
  | value flags next text hflags =>
    exact .value (o :: flags) next text (by simpa [ho] using hflags)

theorem isBundle_bundleOf (o : Opt) : IsBundle (bundleOf o) := by
  unfold bundleOf
  split
  · exact .flags [] _ (by simp)
  · exact .flags [o] _ (by simp_all)

theorem isBundle_attach {o : Opt} {value : Text} {b : Bundle} (h : attach o value = .ok b) :
    IsBundle b := by
  unfold attach at h
  split at h
  · cases h
    exact .value [] o value (by simp)
  · cases h

theorem flagArguments_flags (flags : List Opt) :
    flagArguments (flags.map .flag) = flags.map Opt.spelling := by
  simp [flagArguments, List.filterMap_map]

theorem flagArguments_value (flags : List Opt) (o : Opt) (text : Text) :
    flagArguments (flags.map .flag ++ [.value o text]) = flags.map Opt.spelling := by
  rw [flagArguments, List.filterMap_append, ← flagArguments, flagArguments_flags]
  simp

theorem isOutput_flags {flags : List Opt} {action : Action} (h : action ∈ flags.map Action.flag) :
    action.isOutput = false := by
  obtain ⟨o, -, rfl⟩ := List.mem_map.1 h
  rfl

theorem eq_output {o : Opt} {text : Text} (h : (Action.value o text).isOutput) : o = .output := by
  cases o <;> first | rfl | cases h

theorem readNames_clear (p : Progress) (names : List Argument) :
    readNames (p.map clearOutput) names = (readNames p names).map clearOutput :=
  readNames_map (fun _ _ => rfl) p names

/-- An output that is given in one argument comes last in it, after flags. -/
theorem exists_output {actions : List Action} {remainder : Remainder} (h : IsBundle ⟨actions, remainder⟩)
    (houtput : actions.any Action.isOutput) :
    ∃ (flags : List Opt) (text : Text), (∀ o ∈ flags, o.takesValue = false) ∧
      actions = flags.map .flag ++ [.value .output text] := by
  obtain ⟨action, haction, ho⟩ := List.any_eq_true.1 houtput
  cases h with
  | flags flags _ hflags => cases (isOutput_flags haction).symm.trans ho
  | value flags o text hflags =>
    rcases List.mem_append.1 haction with hflag | hlast
    · cases (isOutput_flags hflag).symm.trans ho
    · obtain rfl := List.mem_singleton.1 hlast
      obtain rfl := eq_output ho
      exact ⟨flags, text, hflags, rfl⟩

section
variable [Edition]

theorem classify_spelling (o : Opt) : classify o.spelling = .ok (.option o false none) := by
  cases o <;> rfl

def bundleOf? (text : Text) : Option Bundle :=
  match classify text with
  | .ok (.option o bundled attached) => (bundle o bundled attached).toOption
  | _ => none

/-- The command line with no output: of an argument that gives one only its flags are left. -/
def withoutOutput : List Text → List Text
  | [] => []
  | text :: texts =>
    if text = "--" then text :: texts
    else
      match bundleOf? text with
      | none => text :: withoutOutput texts
      | some ⟨actions, .pending next⟩ =>
        (if next = .output then flagArguments actions else text :: texts.take 1) ++
          withoutOutput (texts.drop 1)
      | some ⟨actions, _⟩ =>
        (if actions.any Action.isOutput then flagArguments actions else [text]) ++ withoutOutput texts
termination_by argv => argv.length

theorem isBundle_unbundle {o : Opt} {text : Text} {b : Bundle} (h : unbundle o text = .ok b) :
    IsBundle b := by
  fun_induction unbundle o text generalizing b
  case case1 => exact isBundle_attach h
  case case2 => exact isBundle_attach h
  case case3 o p rest ho _ _ =>
    cases h
    exact .flags [o] _ (by simpa using ho)
  case case5 o p ho next _ =>
    cases h
    exact (isBundle_bundleOf next).cons (by simpa using ho)
  case case6 o p rest ho next _ _ _ =>
    obtain ⟨b, hb, rfl⟩ := map_eq_ok_iff.1 h
    exact (isBundle_attach hb).cons (by simpa using ho)
  case case7 o p rest ho next _ _ _ ih =>
    obtain ⟨b, hb, rfl⟩ := map_eq_ok_iff.1 h
    exact (ih hb).cons (by simpa using ho)
  all_goals cases h

theorem isBundle_bundle {o : Opt} {bundled : Bool} {attached : Option Text} {b : Bundle}
    (h : bundle o bundled attached = .ok b) : IsBundle b := by
  unfold bundle at h
  split at h
  · cases h
    exact isBundle_bundleOf o
  · split at h
    · exact isBundle_unbundle h
    · exact isBundle_attach h

theorem clearOutput_apply {action : Action} (h : action.isOutput = false) (options : Options) :
    clearOutput (action.apply options) = action.apply (clearOutput options) := by
  cases action with
  | flag o => cases o <;> rfl
  | value o text => cases o <;> first | rfl | cases h

theorem applyAll_clear {p p' : Progress} {actions : List Action}
    (hactions : ∀ action ∈ actions, action.isOutput = false) (h : applyAll p actions = some p') :
    applyAll (p.map clearOutput) actions = some (p'.map clearOutput) :=
  applyAll_map_some (fun action haction => clearOutput_apply (hactions action haction)) h

theorem applyAll_output {p p' : Progress} {flags : List Opt} {text : Text}
    (h : applyAll p (flags.map .flag ++ [.value .output text]) = some p') :
    applyAll (p.map clearOutput) (flags.map .flag) = some (p'.map clearOutput) := by
  rw [applyAll_append] at h
  obtain ⟨q, hq, h⟩ := Option.bind_eq_some_iff.1 h
  cases h
  have hflags : applyAll (p.map clearOutput) (flags.map .flag) = some (q.map clearOutput) :=
    applyAll_clear (fun _ => isOutput_flags) hq
  exact hflags

theorem classifyAll_flags (flags : List Opt) {texts : List Text} {args : List Argument}
    (h : classifyAll texts = .ok args) :
    classifyAll (flags.map Opt.spelling ++ texts) =
      .ok (flags.map (.option · false none) ++ args) := by
  induction flags with
  | nil => exact h
  | cons o flags ih =>
    exact classifyAll_cons (classify_spelling o) ih

theorem Accepts.flags {flags : List Opt} (hflags : ∀ o ∈ flags, o.takesValue = false)
    {p p' : Progress} (hp : applyAll p (flags.map .flag) = some p') {rest : List Argument}
    {options : Options} (h : Accepts p' rest options) :
    Accepts p (flags.map (.option · false none) ++ rest) options := by
  induction flags generalizing p with
  | nil =>
    cases hp
    exact h
  | cons o flags ih =>
    have ho := hflags o List.mem_cons_self
    have hbundle : bundle o false none = .ok ⟨[.flag o], .nothing⟩ := by simp [bundle, bundleOf, ho]
    rw [List.map_cons, ← List.singleton_append, applyAll_append] at hp
    obtain ⟨q, hq, hp⟩ := Option.bind_eq_some_iff.1 hp
    exact .complete hbundle hq (ih (fun next hnext => hflags next (List.mem_cons_of_mem _ hnext)) hp)

theorem withoutOutput_separator (texts : List Text) :
    withoutOutput (Text.ofString "--" :: texts) = Text.ofString "--" :: texts := by
  simp [withoutOutput]

theorem withoutOutput_name {text name : Text} (texts : List Text)
    (h : classify text = .ok (.name name)) :
    withoutOutput (text :: texts) = text :: withoutOutput texts := by
  simp [withoutOutput, bundleOf?, ne_separator h, h]

theorem withoutOutput_complete {text : Text} {o : Opt} {bundled : Bool} {attached : Option Text}
    {actions : List Action} (texts : List Text)
    (h : classify text = .ok (.option o bundled attached))
    (hbundle : bundle o bundled attached = .ok ⟨actions, .nothing⟩) :
    withoutOutput (text :: texts) =
      (if actions.any Action.isOutput then flagArguments actions else [text]) ++
        withoutOutput texts := by
  simp [withoutOutput, bundleOf?, ne_separator h, h, hbundle, Except.toOption]

theorem withoutOutput_pending {text : Text} {o next : Opt} {bundled : Bool}
    {attached : Option Text} {actions : List Action} (value : Text) (texts : List Text)
    (h : classify text = .ok (.option o bundled attached))
    (hbundle : bundle o bundled attached = .ok ⟨actions, .pending next⟩) :
    withoutOutput (text :: value :: texts) =
      (if next = .output then flagArguments actions else [text, value]) ++ withoutOutput texts := by
  simp [withoutOutput, bundleOf?, ne_separator h, h, hbundle, Except.toOption]

-- by induction on how the command line is accepted, so that an option and its value go together
theorem Accepts.withoutOutput {p : Progress} {args : List Argument} {options : Options}
    {argv : List Text} (h : Accepts p args options) (hargv : classifyAll argv = .ok args) :
    ∃ args', classifyAll (withoutOutput argv) = .ok args' ∧
      Accepts (p.map clearOutput) args' (clearOutput options) := by
  induction h generalizing argv with
  | done p =>
    obtain rfl := classifyAll_eq_nil hargv
    exact ⟨[], by simp [Command.withoutOutput, classifyAll], .done (p.map clearOutput)⟩
  | file hsettled _ ih =>
    obtain ⟨text, texts, rfl, hname, hrest⟩ := classifyAll_eq_cons hargv (by simp)
    obtain ⟨args', hargs', haccepts⟩ := ih hrest
    rw [withoutOutput_name texts hname]
    exact ⟨_, classifyAll_cons hname hargs', .file hsettled haccepts⟩
  | @fileSeparator p name names hsettled hextras =>
    obtain ⟨text, texts, rfl, hname, hrest⟩ := classifyAll_eq_cons hargv (by simp)
    obtain ⟨texts, rfl⟩ := classifyAll_eq_separator hrest
    rw [withoutOutput_name _ hname, withoutOutput_separator]
    have hnames : readNames ((p.map clearOutput).settle name) names =
        (readNames (p.settle name) names).map clearOutput := readNames_clear (p.settle name) names
    have haccepts : Accepts (p.map clearOutput) (.name name :: .separator :: names)
        (readNames ((p.map clearOutput).settle name) names).options :=
      .fileSeparator hsettled (by rw [hnames]; exact hextras)
    rw [hnames] at haccepts
    exact ⟨_, hargv, haccepts⟩
  | @separator p names hsettled hextras =>
    obtain ⟨texts, rfl⟩ := classifyAll_eq_separator hargv
    rw [withoutOutput_separator]
    have haccepts : Accepts (p.map clearOutput) (.separator :: names)
        (readNames (p.map clearOutput) names).options :=
      .separator hsettled (by rw [readNames_clear]; exact hextras)
    rw [readNames_clear] at haccepts
    exact ⟨_, hargv, haccepts⟩
  | @complete p p' o bundled attached actions rest options hbundle happly _ ih =>
    obtain ⟨text, texts, rfl, hoption, hrest⟩ := classifyAll_eq_cons hargv (by simp)
    obtain ⟨args', hargs', haccepts⟩ := ih hrest
    rw [withoutOutput_complete texts hoption hbundle]
    split
    case isTrue houtput =>
      obtain ⟨flags, text, hflags, rfl⟩ := exists_output (isBundle_bundle hbundle) houtput
      rw [flagArguments_value]
      exact ⟨_, classifyAll_flags flags hargs', .flags hflags (applyAll_output happly) haccepts⟩
    case isFalse houtput =>
      have hactions : ∀ action ∈ actions, action.isOutput = false := by simpa using houtput
      exact ⟨_, classifyAll_cons hoption hargs',
        .complete hbundle (applyAll_clear hactions happly) haccepts⟩
  | @pending p p' o next bundled attached actions value rest options hbundle happly _ ih =>
    obtain ⟨text, texts, rfl, hoption, hrest⟩ := classifyAll_eq_cons hargv (by simp)
    obtain ⟨given, texts, rfl, hvalue, hrest⟩ := classifyAll_eq_cons hrest (by simp)
    obtain ⟨args', hargs', haccepts⟩ := ih hrest
    rw [withoutOutput_pending given texts hoption hbundle]
    cases isBundle_bundle hbundle with
    | flags flags _ hflags =>
      split
      case isTrue houtput =>
        subst houtput
        rw [flagArguments_flags]
        exact ⟨_, classifyAll_flags flags hargs', .flags hflags (applyAll_output happly) haccepts⟩
      case isFalse houtput =>
        have hactions : ∀ action ∈ flags.map Action.flag ++ [Action.value next value],
            action.isOutput = false := by
          rw [List.forall_mem_append, List.forall_mem_singleton]
          exact ⟨fun _ => isOutput_flags, Bool.eq_false_iff.2 (mt eq_output houtput)⟩
        exact ⟨_, classifyAll_cons hoption (classifyAll_cons hvalue hargs'),
          .pending hbundle (applyAll_clear hactions happly) haccepts⟩

/-- Without the arguments that give an output, the command line asks for the same run without it. -/
theorem parse_withoutOutput {argv : List Text} {options : Options}
    (h : parse argv = .ok (.run options)) :
    parse (withoutOutput argv) = .ok (.run { options with output := none }) := by
  obtain ⟨⟨args, hargs, haccepts⟩, hstats⟩ := parse_eq_run_iff.1 h
  exact parse_eq_run_iff.2 ⟨haccepts.withoutOutput hargs, hstats⟩

end

example :
    withoutOutput ["-vo", "a.js", "f", "--out=b.js", "-e", "g", "-v=oc.js"] =
      ["--verbose", "f", "-e", "g", "--verbose"] := by
  cbv

end AwaitScript.Command
