import AwaitScript.Proofs.CommandEffects

/-!
Watching a run does not change it, except that source text is encoded before it is measured. A flag in front
of the command line is set in what the command line asks for and changes nothing else there, so a run with
the log or with statistics is compared with the run that has the same options but for the flag.
-/

namespace AwaitScript

namespace Options

def set [Command.Edition] (options : Options) (o : Command.Opt) : Options :=
  (Command.Action.flag o).apply options

def selectsTree (options : Options) : Bool :=
  options.fromAst || options.astOnly || options.emissionOnly

end Options

namespace Command

def Request.map (g : Options → Options) : Request → Request
  | .help => .help
  | .run options => .run (g options)

section
variable {g : Options → Options}
  (hfile : ∀ (p : Progress) (text : Text), (p.settle text).map g = (p.map g).settle text)

theorem finish_map (p : Progress) :
    readArguments.finish (p.map g) = (readArguments.finish p).map (Request.map g) := by
  unfold readArguments.finish Progress.map
  split <;> rfl

include hfile in
theorem finish_readNames_map (p : Progress) (names : List Argument) :
    readArguments.finish (readNames (p.map g) names) =
      (readArguments.finish (readNames p names)).map (Request.map g) := by
  rw [readNames_map hfile, finish_map]

variable [Edition] (hg : ∀ (action : Action) options, g (action.apply options) = action.apply (g options))

include hg hfile in
/-- A change of the options that nothing on the command line interferes with can be made before or after
all of it. What the command line is refused for stays the same. -/
theorem readArguments_map (p : Progress) (args : List Argument) :
    readArguments (p.map g) args = (readArguments p args).map (Request.map g) := by
  have happly (p : Progress) (actions : List Action) :
      applyAll (p.map g) actions = (applyAll p actions).map (Progress.map g) :=
    applyAll_map (fun action _ => hg action) p
  fun_induction readArguments p args
  case case1 p hextras => simp [readArguments, Progress.map, hextras, Except.map, Request.map]
  case case2 p hextras => simp [readArguments, Progress.map, hextras, Except.map]
  case case3 p text names hsettled =>
    rw [readArguments, if_pos (show (p.map g).settled = true from hsettled)]
    exact finish_readNames_map hfile { p with extras := Text.ofString "--" :: text :: p.extras } names
  case case4 p text names hsettled =>
    rw [readArguments, if_neg (show ¬ (p.map g).settled = true from hsettled)]
    exact (congrArg (fun q => readArguments.finish (readNames q names)) (hfile p text)).symm.trans
      (finish_readNames_map hfile (p.settle text) names)
  case case5 p text rest hrest hsettled ih =>
    rw [readArguments, if_pos (show (p.map g).settled = true from hsettled), ← ih]
    · rfl
    · exact hrest
  case case6 p text rest hrest hsettled ih =>
    rw [readArguments, if_neg (show ¬ (p.map g).settled = true from hsettled), ← ih]
    · exact congrArg (readArguments · rest) (hfile p text).symm
    · exact hrest
  case case7 p names hsettled =>
    rw [readArguments, if_pos (show (p.map g).settled = true from hsettled)]
    exact finish_readNames_map hfile { p with extras := Text.ofString "--" :: p.extras } names
  case case8 p names hsettled =>
    rw [readArguments, if_neg (show ¬ (p.map g).settled = true from hsettled)]
    exact finish_readNames_map hfile p names
  case case9 p text rest ih =>
    rw [readArguments, ← ih]
    rfl
  case case10 hbundle => simp [readArguments, hbundle, Except.map]
  case case11 hbundle hhelp => simp [readArguments, hbundle, happly, hhelp, Except.map, Request.map]
  case case12 hbundle _ hp ih => simpa [readArguments, hbundle, happly, hp] using ih
  case case13 text hbundle hhelp => simp [readArguments, hbundle, happly, hhelp, Except.map, Request.map]
  case case14 text hbundle _ hp ih =>
    simp only [readArguments, hbundle, happly, hp]
    exact ih
  case case15 hbundle _ _ hhelp => simp [readArguments, hbundle, happly, hhelp, Except.map, Request.map]
  case case16 hbundle _ _ _ hp ih => simpa [readArguments, hbundle, happly, hp] using ih
  case case17 hbundle _ => simp [readArguments, hbundle, Except.map]

end

/-! ### A flag in front -/

def allow : Request → Except UsageError Request
  | .help => .ok .help
  | .run options =>
    if options.stats && options.selectsTree then .error .statsWithTree else .ok (.run options)

section
variable [Edition]

theorem classifyAll_flag {text : Text} {argument : Argument} (h : classify text = .ok argument)
    (argv : List Text) : classifyAll (text :: argv) = (classifyAll argv).map (argument :: ·) := by
  rw [classifyAll, if_neg (ne_separator h), h]
  cases classifyAll argv <;> rfl

def asked (argv : List Text) : Except UsageError Request := do
  let arguments ← classifyAll argv
  readArguments {} arguments

theorem parse_eq (argv : List Text) : parse argv = asked argv >>= allow := by
  unfold parse asked
  cases classifyAll argv with
  | error e => rfl
  | ok arguments =>
    simp only [bind, Except.bind]
    cases readArguments {} arguments with
    | error e => rfl
    | ok request =>
      cases request with
      | help => rfl
      | run options =>
        dsimp only [allow]
        by_cases hclash : (options.stats && options.selectsTree) = true
        · rw [if_pos hclash]
          exact if_pos hclash
        · rw [if_neg hclash]
          exact if_neg hclash

theorem set_apply (o : Opt) (action : Action) (options : Options) :
    Options.set (action.apply options) o = action.apply (options.set o) := by
  cases action with
  | flag other => cases o <;> cases other <;> rfl
  | value other text => cases o <;> cases other <;> rfl

theorem set_settle (o : Opt) (p : Progress) (text : Text) :
    (p.settle text).map (Options.set · o) = (p.map (Options.set · o)).settle text := by
  cases o <;> rfl

/-- A flag in front of a command line is set in what the command line asks for, and changes nothing else. -/
theorem asked_flag {text : Text} {o : Opt} {bundled : Bool}
    (htext : classify text = .ok (.option o bundled none)) (hvalue : o.takesValue = false)
    (hhelp : o ≠ .help) (argv : List Text) :
    asked (text :: argv) = (asked argv).map (Request.map (Options.set · o)) := by
  have hbundle : bundle o bundled none = .ok ⟨[.flag o], .nothing⟩ := by simp [bundle, bundleOf, hvalue]
  have happly : applyAll {} [.flag o] = some (Progress.map (Options.set · o) {}) := by
    rw [applyAll, applyAll]
    · rfl
    · simpa using hhelp
  unfold asked
  rw [classifyAll_flag htext]
  cases classifyAll argv with
  | error e => rfl
  | ok args =>
    change readArguments {} (.option o bundled none :: args) = _
    rw [readArguments, hbundle]
    dsimp only
    rw [happly]
    exact readArguments_map (set_settle o) (set_apply o) {} args

theorem parse_verbose (argv : List Text) :
    parse ("-v" :: argv) = (parse argv).map (Request.map (Options.set · .verbose)) := by
  have hflag : classify "-v" = .ok (.option .verbose true none) := by rfl
  rw [parse_eq, parse_eq, asked_flag hflag rfl (by decide)]
  cases asked argv with
  | error e => rfl
  | ok request =>
    cases request with
    | help => rfl
    | run options =>
      change allow (.run (options.set .verbose)) = (allow (.run options)).map _
      have hset : (options.set .verbose).stats = options.stats ∧
          (options.set .verbose).selectsTree = options.selectsTree := ⟨rfl, rfl⟩
      simp only [allow, hset]
      split <;> rfl

theorem parse_stats {argv : List Text}
    (h : ∀ options, parse argv = .ok (.run options) → options.selectsTree = false) :
    parse ("--stats" :: argv) = (parse argv).map (Request.map (Options.set · .stats)) := by
  have hflag : classify "--stats" = .ok (.option .stats false none) := by rfl
  rw [parse_eq] at h
  rw [parse_eq, parse_eq, asked_flag hflag rfl (by decide)]
  cases hasked : asked argv with
  | error e => rfl
  | ok request =>
    cases request with
    | help => rfl
    | run options =>
      change allow (.run (options.set .stats)) = (allow (.run options)).map _
      have hset : (options.set .stats).stats = true ∧
          (options.set .stats).selectsTree = options.selectsTree := ⟨rfl, rfl⟩
      by_cases htree : options.selectsTree = true
      · have hstats : options.stats = true := by
          by_contra hstats
          have hparse : allow (.run options) = .ok (.run options) := by simp [allow, hstats]
          rw [hasked] at h
          rw [h options hparse] at htree
          cases htree
        simp [allow, hset, htree, hstats, Except.map]
      · simp [allow, hset, htree, Except.map, Request.map]

theorem parse_stats_run {argv : List Text} {options : Options}
    (htree : ∀ options, parse argv = .ok (.run options) → options.selectsTree = false)
    (h : parse argv = .ok (.run options)) :
    parse ("--stats" :: argv) = .ok (.run (options.set .stats)) := by
  rw [parse_stats htree, h]
  rfl

end

/-! ### Two runs side by side -/

/-- Two runs end in the same way, with the same output and the same files, whatever they say on the error
channel. -/
def SameResult (one other : Except Abort Nat × World) : Prop :=
  one.1 = other.1 ∧ one.2.stdout = other.2.stdout ∧ one.2.directory = other.2.directory

theorem SameResult.refl (run : Except Abort Nat × World) : SameResult run run := ⟨rfl, rfl, rfl⟩

section
variable {options options' : Options} {w w' : World} (hout : w.stdout = w'.stdout)
  (hfiles : w.directory = w'.directory)
include hout hfiles

theorem sameResult_refused (f : Failure) : SameResult (refused options f w) (refused options' f w') := by
  unfold refused
  split <;> exact ⟨rfl, hout, hfiles⟩

theorem sameResult_written (verbose verbose' : Bool) (path text : Text) :
    SameResult (written verbose path text w) (written verbose' path text w') := by
  unfold written
  rw [hfiles]
  split
  · exact ⟨rfl, hout, hfiles⟩
  · split
    · exact ⟨rfl, hout, rfl⟩
    · split
      · exact ⟨rfl, hout, hfiles⟩
      · exact ⟨rfl, hout, rfl⟩

variable [Locale]

theorem sameResult_printed (text : Text) : SameResult (printed text w) (printed text w') := by
  unfold printed
  rw [hout]
  split
  · exact ⟨rfl, hout, hfiles⟩
  · exact ⟨rfl, rfl, hfiles⟩

theorem sameResult_delivered (houtput : options.output = options'.output) (output : Text) :
    SameResult (delivered options output w) (delivered options' output w') := by
  unfold delivered
  rw [houtput]
  split
  · exact sameResult_printed hout hfiles _
  · exact sameResult_written hout hfiles _ _ _ _

end

section
variable [Locale] [Json.Edition]

theorem sameResult_execute {options options' : Options} (houtput : options.output = options'.output)
    (hfile : options.file = options'.file) {clock : Clock} {directory : Directory} {stdin : Bytes}
    (hproduce : ∀ text, input directory stdin options' = .ok text →
      (produce options clock text).2 = (produce options' clock text).2) :
    SameResult ((execute stdin clock options).run.run { directory })
      ((execute stdin clock options').run.run { directory }) := by
  have hinput : input directory stdin options = input directory stdin options' := by
    unfold input
    rw [hfile]
  rw [execute_run, execute_run, hinput]
  cases htext : input directory stdin options' with
  | error abort => exact .refl _
  | ok text =>
    have hsame := hproduce text htext
    dsimp only
    generalize produce options clock text = produced at hsame ⊢
    generalize produce options' clock text = produced' at hsame ⊢
    obtain ⟨notes, outcome⟩ := produced
    obtain ⟨notes', outcome'⟩ := produced'
    obtain rfl : outcome = outcome' := hsame
    cases outcome with
    | error f =>
      dsimp only
      refine sameResult_refused ?_ ?_ f <;> rfl
    | ok output =>
      dsimp only
      refine sameResult_delivered ?_ ?_ houtput output <;> rfl

theorem sameResult_conduct [Edition] {g : Options → Options} {argv argv' : List Text}
    (hparse : parse argv = (parse argv').map (Request.map g)) {directory : Directory} {stdin : Bytes}
    {clock : Clock}
    (hrun : ∀ options, parse argv' = .ok (.run options) →
      SameResult ((execute stdin clock (g options)).run.run { directory })
        ((execute stdin clock options).run.run { directory })) :
    SameResult (conduct directory stdin clock argv) (conduct directory stdin clock argv') := by
  unfold conduct session
  rw [hparse]
  cases hargv : parse argv' with
  | error e => exact .refl _
  | ok request =>
    cases request with
    | help => exact .refl _
    | run options => exact hrun options hargv

end

/-! ### Source text with and without statistics -/

theorem ofLowerError_ne_encoding (e : LowerError) (stray : Text.Stray) :
    Failure.ofLowerError e ≠ .encoding stray := by
  unfold Failure.ofLowerError
  split
  · split <;> exact nofun
  · exact nofun

theorem result_ne_encoding (options : Options) (program : Program) (stray : Text.Stray) :
    result options program ≠ .error (.encoding stray) := by
  have hlowered {α : Type} (x : Except LowerError α) :
      x.mapError Failure.ofLowerError ≠ .error (.encoding stray) := by
    cases x with
    | ok a => exact nofun
    | error e => exact fun h => ofLowerError_ne_encoding e stray (Except.error.inj h)
  unfold result
  split
  · unfold Program.dump
    split <;> exact nofun
  split
  · have h := hlowered program.dumpEmission
    cases hdump : program.dumpEmission.mapError Failure.ofLowerError with
    | ok s => exact nofun
    | error f =>
      intro heq
      obtain rfl : f = .encoding stray := Except.error.inj heq
      exact h hdump
  · exact hlowered _

theorem ofDiagnostic_ne_encoding (d : Option Diagnostic) (stray : Text.Stray) :
    Failure.ofDiagnostic d ≠ .encoding stray := by
  cases d <;> exact nofun

theorem programOf_ne_encoding (text : Text) (stray : Text.Stray) :
    Source.programOf text ≠ .error (.encoding stray) := by
  have hreported {α : Type} (x : Except ParseError α) (words : ParseError → Option Diagnostic) :
      x.mapError (fun e => Failure.ofDiagnostic (words e)) ≠ .error (.encoding stray) := by
    cases x with
    | ok a => exact nofun
    | error e => exact fun h => ofDiagnostic_ne_encoding (words e) stray (Except.error.inj h)
  unfold Source.programOf
  split
  · exact hreported _ _
  · exact hreported _ _

theorem compileNamed_of_error {config : Config} {program : Program} {f : Failure}
    (h : (program.compile config).mapError Failure.ofLowerError = .error f) (name : Text) :
    (program.compileNamed name).mapError Failure.ofLowerError = .error f := by
  unfold Program.compile at h
  unfold Program.compileNamed
  cases hlower : program.lower with
  | ok body => simp [hlower, Except.map, Except.mapError] at h
  | error e =>
    rw [hlower] at h
    obtain rfl : Failure.ofLowerError e = f := Except.error.inj h
    rfl

theorem isScalar_of_decoded {bytes : Bytes} {text : Text} (h : decoded bytes = .ok text) :
    text.isScalar := by
  obtain ⟨cs, -, rfl⟩ := map_eq_ok_iff.1 h
  simp [Text.isScalar, CodePoint.char?]

section
variable [Json.Edition]

theorem obtain_ne_encoding (options : Options) (text : Text) (stray : Text.Stray) :
    (obtain options text).2 ≠ .error (.encoding stray) := by
  have hprogram := programOf_ne_encoding text stray
  unfold obtain
  split
  · cases Program.loadText text <;> exact nofun
  · dsimp only
    split
    · next f hf => exact fun h => hprogram (hf.trans h)
    · exact nofun

theorem produce_ne_encoding {options : Options} (h : options.stats = false) (clock : Clock) (text : Text)
    (stray : Text.Stray) : (produce options clock text).2 ≠ .error (.encoding stray) := by
  have hobtain := obtain_ne_encoding options text stray
  rw [produce_result (by simp [h])]
  cases hprogram : (obtain options text).2 with
  | error f =>
    intro heq
    obtain rfl : f = .encoding stray := Except.error.inj heq
    exact hobtain hprogram
  | ok program => exact result_ne_encoding options program stray

def failureNotes (text : String) : List Note :=
  match obtain {} text with
  | (notes, .error _) => notes
  | (notes, .ok program) =>
    notes ++ [.info s!"transpiler.lowering: Lowering program with {program.length} top-level statements"]

theorem produce_error {options : Options} (h : options.selectsTree = false) (clock : Clock)
    {text : String} {config : Config} {f : Failure} (hcompile : Source.compile config text = .error f) :
    produce options clock text = (failureNotes text, .error f) := by
  have hmeasured := measured_ofString clock text (·.compileNamed options.entryPoint) lineCount
  simp only [Options.selectsTree, Bool.or_eq_false_iff] at h
  obtain ⟨⟨hfrom, hast⟩, hemission⟩ := h
  simp only [produce, failureNotes, obtain, hfrom, hast, hemission, Bool.false_eq_true, if_false,
    Text.strict_ofString, programOf_ofString]
  unfold Source.compile at hcompile
  cases hprogram : Source.program text with
  | error g =>
    rw [hprogram] at hcompile
    cases hcompile
    rfl
  | ok program =>
    rw [hprogram] at hcompile hmeasured
    have hnamed := compileNamed_of_error (show (program.compile config).mapError _ = _ from hcompile)
      options.entryPoint
    change _ = (program.compileNamed options.entryPoint).mapError _ at hmeasured
    rw [hnamed] at hmeasured
    cases hstatistics : Source.measured clock text (·.compileNamed options.entryPoint) lineCount with
    | ok measured => simp [hstatistics, Except.map] at hmeasured
    | error g =>
      rw [hstatistics] at hmeasured
      cases hmeasured
      simp only [hnamed]
      split <;> rfl

/-- What is asked for is the same with statistics and without, if they are there already or the text can
be encoded. -/
theorem produce_stats [Edition] {options : Options} (h : options.selectsTree = false) (clock : Clock)
    {text : Text} (htext : options.stats = true ∨ text.isScalar) :
    (produce (options.set .stats) clock text).2 = (produce options clock text).2 := by
  have hfrom : options.fromAst = false := by
    simp only [Options.selectsTree, Bool.or_eq_false_iff] at h
    exact h.1.1
  rcases htext with hstats | htext
  · have hset : options.set .stats = options := by
      change { options with stats := true } = options
      rw [← hstats]
    rw [hset]
  · have hset : (options.set .stats).stats = true →
        (options.set .stats).fromAst = false ∧ text.isScalar := fun _ => ⟨hfrom, htext⟩
    rw [produce_result hset, produce_result fun _ => ⟨hfrom, htext⟩]
    rfl

end

section
variable [Locale]

theorem delivered_ne_failure (options : Options) (output : Text) (w : World) (f : Failure) :
    (delivered options output w).1 ≠ .error (.failure f) := by
  unfold delivered
  split
  · unfold printed
    split <;> exact nofun
  · unfold written
    split
    · exact nofun
    · split
      · exact nofun
      · split <;> exact nofun

theorem isScalar_input {directory : Directory} {stdin : Bytes} {options : Options} {text : Text}
    (h : input directory stdin options = .ok text) (hstdin : Locale.lenient = false ∨
      given? options.file ≠ none ∨ ∃ chars, Utf8.decode stdin = .ok chars) : text.isScalar := by
  unfold input at h
  cases hfile : given? options.file with
  | some path =>
    rw [hfile] at h
    obtain ⟨bytes, -, h⟩ := bind_eq_ok_iff.1 h
    exact isScalar_of_decoded (mapError_eq_ok_iff.1 h)
  | none =>
    rw [hfile] at h
    have h := mapError_eq_ok_iff.1 h
    rcases hstdin with hstrict | hpath | ⟨chars, hchars⟩
    · rw [received, if_neg (by simp [hstrict])] at h
      exact isScalar_of_decoded h
    · exact absurd hfile hpath
    · have hdecoded : decoded stdin = .ok ((LineBreak.normalize chars).map .scalar) := by
        rw [decoded, hchars]
        rfl
      cases (received_of_decoded hdecoded).symm.trans h
      exact isScalar_of_decoded hdecoded

variable [Json.Edition]

theorem execute_ne_encoding {options : Options} (h : options.stats = false) {directory : Directory}
    {stdin : Bytes} {text : Text} (hinput : input directory stdin options = .ok text) (clock : Clock)
    (stray : Text.Stray) :
    ((execute stdin clock options).run.run { directory }).1 ≠ .error (.failure (.encoding stray)) := by
  have hproduce := produce_ne_encoding h clock text stray
  rw [execute_run]
  simp only [hinput]
  split
  · next notes f hf =>
    unfold refused
    split
    · exact nofun
    · intro heq
      obtain rfl : f = .encoding stray := Abort.failure.inj (Except.error.inj heq)
      exact hproduce (congrArg Prod.snd hf)
  · exact delivered_ne_failure _ _ _ _

variable [Edition]

theorem execute_stray {directory : Directory} {stdin : Bytes} {options : Options} {text : Text}
    {stray : Text.Stray} (hinput : input directory stdin options = .ok text)
    (hstray : text.strict = .error stray) (clock : Clock) :
    (execute stdin clock (options.set .stats)).run.run { directory } =
      (.error (.failure (.encoding stray)), { directory }) := by
  have hinput' : input directory stdin (options.set .stats) = .ok text := hinput
  have hstats : (options.set .stats).stats = true := rfl
  rw [execute_run]
  simp only [hinput', produce_stray hstats hstray]
  rfl

theorem stderr_of_error {directory : Directory} {stdin : Bytes} {options : Options} {text : String}
    (htree : options.selectsTree = false) (hinput : input directory stdin options = .ok text)
    {config : Config} {f : Failure} (hcompile : Source.compile config text = .error f) (clock : Clock) :
    ((execute stdin clock (options.set .stats)).run.run { directory }).2.stderr =
      ((execute stdin clock options).run.run { directory }).2.stderr := by
  have hinput' : input directory stdin (options.set .stats) = .ok text := hinput
  have htree' : (options.set .stats).selectsTree = false := htree
  rw [execute_run, execute_run]
  simp only [hinput, hinput', produce_error htree' clock hcompile, produce_error htree clock hcompile]
  rfl

end

def stringFile : Directory := { files := [([Text.ofString "p"], Utf8.encode "x = 1\r\n\"s\"".toList)] }

end Command
end AwaitScript
