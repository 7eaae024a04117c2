import AwaitScript.Command.Run
import AwaitScript.Proofs.CommandArguments
import AwaitScript.Proofs.EncodedText
import AwaitScript.Proofs.WorkingDirectory

/-!
What a run of the command leaves behind. A run prints its output or writes it to the one file that was asked
for, or it fails with nothing printed. A run that fails leaves all files as they were, except that a file is
emptied before it turns out that the output has no encoding, because of the name of the entry point.
-/

namespace AwaitScript

/-! ### Output with any name for the entry point -/

namespace Emission

theorem flatten_line (unit text : String) (rest : List Emission) (h : text ≠ "") :
    flatten unit "" (line text :: rest) = "\n".intercalate (text :: pieces unit "" rest) := by
  simp [flatten, pieces, piece?, h]

theorem intercalate_append (s t : String) (rest : List String) :
    "\n".intercalate ((s ++ t) :: rest) = s ++ "\n".intercalate (t :: rest) := by
  cases rest with
  | nil => simp only [String.intercalate_singleton]
  | cons u rest => simp only [String.intercalate_cons_cons, String.append_assoc]

/-- A name that is a string is that of a configuration. -/
theorem wrapNamed_ofString (name : String) (body : Emission) :
    wrapNamed name body = Text.ofString (wrap { entryPoint := name } body) := by
  have hopening : ({ entryPoint := name } : Config).opening ≠ "" :=
    fun h => absurd (String.append_eq_empty_iff.1 h).2 (by simp)
  rw [wrapNamed, wrap, flatten_line _ _ _ hopening, flatten_line _ " () \x7b" _ (by simp),
    ← Text.ofString_append, ← Text.ofString_append, ← intercalate_append]
  rfl

theorem isScalar_wrapNamed (name : Text) (body : Emission) :
    (wrapNamed name body).isScalar = name.isScalar := by
  simp [wrapNamed, Text.isScalar_append]

end Emission

namespace Command

/-! ### How a run ends -/

def World.noted (w : World) (verbose : Bool) (notes : List Note) : World :=
  { w with stderr := w.stderr ++ channel verbose notes }

def printed [Locale] (text : Text) (w : World) : Except Abort Nat × World :=
  match text.checkFrom Locale.keeps 0 with
  | .error stray => (.error (.encoding stray), w)
  | .ok () => (.ok 0, { w with stdout := w.stdout ++ text })

/-- How a run ends that has a text to write. The file is emptied first. -/
def written (verbose : Bool) (path text : Text) (w : World) : Except Abort Nat × World :=
  match w.directory.write path [] with
  | .error e => (.error (.path e), w)
  | .ok opened =>
    match text.strict with
    | .error stray => (.error (.encoding stray), { w with directory := opened })
    | .ok s =>
      match w.directory.write path (Utf8.encode s.toList) with
      | .error e => (.error (.path e), w)
      | .ok directory =>
        (.ok 0, { w with directory }.noted verbose [.info ("transpiler.cli: Wrote " ++ path.shown)])

def delivered [Locale] (options : Options) (output : Text) (w : World) : Except Abort Nat × World :=
  match given? options.output with
  | none => printed (output ++ Text.ofString "\n") w
  | some path => written options.verbose path (output ++ Text.ofString "\n") w

def refused (options : Options) (f : Failure) (w : World) : Except Abort Nat × World :=
  match failureMessage? f with
  | some message => (.ok 1, w.noted options.verbose [.report ("error: " ++ message)])
  | none => (.error (.failure f), w)

theorem run_bind {α β : Type} (x : Session α) (f : α → Session β) (w : World) :
    (x >>= f).run.run w =
      match x.run.run w with
      | (.ok a, w) => (f a).run.run w
      | (.error abort, w) => (.error abort, w) := by
  change ExceptT.bindCont f (x.run.run w).1 (x.run.run w).2 = _
  rcases x.run.run w with ⟨_ | _, w⟩ <;> rfl

theorem run_get (w : World) : (get : Session World).run.run w = (.ok w, w) := rfl

theorem run_lift {α : Type} (x : Except Abort α) (w : World) :
    (liftM x : Session α).run.run w = (x, w) := by
  cases x <;> rfl

theorem store_run (path : Text) (bytes : Bytes) (w : World) :
    (Session.store path bytes).run.run w =
      match w.directory.write path bytes with
      | .error e => (.error (.path e), w)
      | .ok directory => (.ok (), { w with directory }) := by
  simp only [Session.store, run_bind, run_get]
  cases w.directory.write path bytes <;> rfl

section
variable [Locale]

theorem print_run (text : Text) (w : World) :
    (do Session.print text; return 0 : Session Nat).run.run w = printed text w := by
  simp only [Session.print, run_bind, printed]
  cases text.checkFrom Locale.keeps 0 <;> rfl

theorem printed_ofString (s : String) (w : World) :
    printed s w = (.ok 0, { w with stdout := w.stdout ++ Text.ofString s }) := by
  rw [printed, Text.check_ofString]

theorem deliver_run (options : Options) (output : Text) (w : World) :
    (do deliver options output; return 0 : Session Nat).run.run w = delivered options output w := by
  unfold deliver delivered
  generalize output ++ Text.ofString "\n" = text
  cases given? options.output with
  | none => exact print_run text w
  | some path =>
    simp only [Session.save, run_bind, store_run, written]
    cases hopen : w.directory.write path [] with
    | error e => rfl
    | ok opened =>
      dsimp only
      cases text.strict with
      | error stray => rfl
      | ok s =>
        -- what can be opened can be written, and the second step ends where one step would
        obtain ⟨after, hagain, honce⟩ := @Directory.write_write _ _ _ (Utf8.encode s.toList) _ hopen
        simp only [store_run, hagain, honce]
        rfl

end

/-! ### What a run gives -/

def result (options : Options) (program : Program) : Except Failure Text :=
  if options.astOnly then (program.dump (some 2)).map Text.ofString
  else if options.emissionOnly then (program.dumpEmission.mapError .ofLowerError).map Text.ofString
  else (program.compileNamed options.entryPoint).mapError .ofLowerError

theorem measured_ofString {α : Type} (clock : Clock) (text : String)
    (compile : Program → Except LowerError α) (lines : α → Nat) :
    (Source.measured clock text compile lines).map Prod.fst =
      Source.program text >>= fun program => (compile program).mapError .ofLowerError := by
  unfold Source.measured
  rw [Text.strict_ofString]
  change (Source.program text >>= _).map Prod.fst = _
  cases Source.program text with
  | error f => rfl
  | ok program =>
    change ((compile program).mapError _ >>= _).map Prod.fst = (compile program).mapError _
    cases compile program <;> rfl

theorem isScalar_result {options : Options} (h : options.entryPoint.isScalar) {program : Program}
    {output : Text} (hresult : result options program = .ok output) : output.isScalar := by
  unfold result at hresult
  split at hresult
  · obtain ⟨s, -, rfl⟩ := map_eq_ok_iff.1 hresult
    exact Text.isScalar_ofString s
  split at hresult
  · obtain ⟨s, -, rfl⟩ := map_eq_ok_iff.1 hresult
    exact Text.isScalar_ofString s
  · obtain ⟨e, -, rfl⟩ := map_eq_ok_iff.1 (mapError_eq_ok_iff.1 hresult)
    rwa [Emission.isScalar_wrapNamed]

theorem programOf_ofString (s : String) : Source.programOf s = Source.program s := by
  rw [Source.programOf, Text.strict_ofString]

section
variable [Json.Edition]

theorem produce_stray {options : Options} {text : Text} {stray : Text.Stray} (h : options.stats = true)
    (htext : text.strict = .error stray) (clock : Clock) :
    produce options clock text = ([], .error (.encoding stray)) := by
  rw [produce, h, htext]

theorem produce_result {options : Options} {text : Text}
    (h : options.stats = true → options.fromAst = false ∧ text.isScalar) (clock : Clock) :
    (produce options clock text).2 = (obtain options text).2.bind (result options) := by
  unfold produce
  split
  · next stray hstray hstats =>
    obtain ⟨s, rfl⟩ := Text.exists_ofString (h hstats).2
    simp at hstray
  rcases hobtain : obtain options text with ⟨notes, f | program⟩
  · rfl
  simp only [Except.bind, result]
  split
  · rfl
  split
  · rfl
  split
  · next hstats =>
    obtain ⟨hfrom, htext⟩ := h hstats
    obtain ⟨s, rfl⟩ := Text.exists_ofString htext
    have hprogram : Source.program s = .ok program := by
      simp only [obtain, hfrom, programOf_ofString, Bool.false_eq_true, if_false] at hobtain
      split at hobtain <;> simp_all
    have hmeasured := measured_ofString clock s (·.compileNamed options.entryPoint) lineCount
    rw [hprogram] at hmeasured
    change _ = (program.compileNamed options.entryPoint).mapError _ at hmeasured
    rw [← hmeasured]
    cases Source.measured clock s (·.compileNamed options.entryPoint) lineCount <;> rfl
  · rfl

theorem result_of_produce {options : Options} (h : options.stats = true → options.fromAst = false)
    {clock : Clock} {text output : Text} (hproduce : (produce options clock text).2 = .ok output) :
    ∃ program, result options program = .ok output := by
  have htext : options.stats = true → options.fromAst = false ∧ text.isScalar := by
    intro hstats
    refine ⟨h hstats, ?_⟩
    cases hstrict : text.strict with
    | error stray => simp [produce_stray hstats hstrict] at hproduce
    | ok s => simp [Text.strict_eq_ok_iff.1 hstrict]
  rw [produce_result htext] at hproduce
  obtain ⟨program, -, hprogram⟩ := bind_eq_ok_iff.1 hproduce
  exact ⟨program, hprogram⟩

variable [Locale]

theorem execute_run (stdin : Bytes) (clock : Clock) (options : Options) (w : World) :
    (execute stdin clock options).run.run w =
      match input w.directory stdin options with
      | .error abort => (.error abort, w)
      | .ok text =>
        match produce options clock text with
        | (notes, .error f) => refused options f (w.noted options.verbose notes)
        | (notes, .ok output) => delivered options output (w.noted options.verbose notes) := by
  simp only [execute, run_bind, run_get, run_lift]
  cases input w.directory stdin options with
  | error abort => rfl
  | ok text =>
    dsimp only
    obtain ⟨notes, outcome⟩ := produce options clock text
    cases outcome with
    | ok output => exact deliver_run options output (w.noted options.verbose notes)
    | error f =>
      simp only [refused]
      cases failureMessage? f <;> rfl

variable [Edition]

theorem conduct_of_parse {argv : List Text} {options : Options}
    (h : parse argv = .ok (.run options)) (directory : Directory) (stdin : Bytes) (clock : Clock) :
    conduct directory stdin clock argv = (execute stdin clock options).run.run { directory } := by
  simp only [conduct, session, h]

end

/-! ### What a run leaves -/

section
variable [Edition]

def outputPath? (argv : List Text) : Option Text :=
  match parse argv with
  | .ok (.run options) => given? options.output
  | _ => none

def entryName (argv : List Text) : Text :=
  match parse argv with
  | .ok (.run options) => options.entryPoint
  | _ => []

theorem outputPath?_eq_some {argv : List Text} {path : Text} (h : outputPath? argv = some path) :
    ∃ options, parse argv = .ok (.run options) ∧ given? options.output = some path := by
  unfold outputPath? at h
  split at h
  · exact ⟨_, by assumption, h⟩
  · cases h

end

/-- The ways in which a run ends: with nothing done, with its output printed or written to a file, or with
that file emptied and nothing written to it. -/
inductive Ending (directory : Directory) (path? : Option Text) (name : Text) :
    Except Abort Nat → World → Prop
  | failed {ending : Except Abort Nat} (stderr : String) : ending ≠ .ok 0 →
    (∀ stray, ending = .error (.encoding stray) → path? = none) →
    Ending directory path? name ending { directory, stderr }
  | printed (stdout : Text) (stderr : String) : path? = none →
    Ending directory path? name (.ok 0) { directory, stdout, stderr }
  | emptied {path : Text} {after : Directory} (stray : Text.Stray) (stderr : String) :
    path? = some path → name.isScalar = false → directory.write path [] = .ok after →
    Ending directory path? name (.error (.encoding stray)) { directory := after, stderr }
  | written {path : Text} {text : String} {after : Directory} (stderr : String) : path? = some path →
    directory.write path (Utf8.encode text.toList) = .ok after →
    Ending directory path? name (.ok 0) { directory := after, stderr }

namespace Ending
variable {directory : Directory} {path? : Option Text} {name : Text} {ending : Except Abort Nat}
  {world : World} (h : Ending directory path? name ending world)
include h

theorem find?_eq {location : Location} (hq : ∀ path ∈ path?, directory.resolve path ≠ .ok location) :
    world.directory.find? location = directory.find? location := by
  cases h with
  | failed => rfl
  | printed => rfl
  | emptied _ _ hpath _ hwrite => exact Directory.find?_write hwrite (hq _ hpath)
  | written _ hpath hwrite => exact Directory.find?_write hwrite (hq _ hpath)

theorem isFolder_eq (location : Location) :
    world.directory.isFolder location = directory.isFolder location := by
  cases h with
  | failed => rfl
  | printed => rfl
  | emptied _ _ _ _ hwrite => exact Directory.isFolder_write hwrite location
  | written _ _ hwrite => exact Directory.isFolder_write hwrite location

theorem resolve_of_changed {file : Location × Bytes} (hfile : file ∈ directory.changes world.directory) :
    ∃ path ∈ path?, directory.resolve path = .ok file.1 := by
  cases h with
  | failed => simp [Directory.changes_self] at hfile
  | printed => simp [Directory.changes_self] at hfile
  | emptied _ _ hpath _ hwrite => exact ⟨_, hpath, Directory.location_of_mem_changes hwrite hfile⟩
  | written _ hpath hwrite => exact ⟨_, hpath, Directory.location_of_mem_changes hwrite hfile⟩

theorem of_ne_ok (hended : ending ≠ .ok 0) :
    world.stdout = [] ∧ (world.directory = directory ∨
      name.isScalar = false ∧ ∃ path ∈ path?, ∃ stray, ending = .error (.encoding stray) ∧
        directory.write path [] = .ok world.directory) := by
  cases h with
  | failed => exact ⟨rfl, .inl rfl⟩
  | printed => exact absurd rfl hended
  | emptied stray _ hpath hname hwrite => exact ⟨rfl, .inr ⟨hname, _, hpath, stray, rfl, hwrite⟩⟩
  | written => exact absurd rfl hended

theorem emptied_of_encoding {path : Text} (hpath : path ∈ path?) {stray : Text.Stray}
    (hended : ending = .error (.encoding stray)) : directory.write path [] = .ok world.directory := by
  cases h with
  | failed _ _ hnone =>
    rw [hnone stray hended] at hpath
    cases hpath
  | printed => cases hended
  | emptied _ _ hpath' _ hwrite =>
    cases hpath'.symm.trans hpath
    exact hwrite
  | written => cases hended

end Ending

theorem refused_ne_ok (options : Options) (f : Failure) (w : World) :
    (refused options f w).1 ≠ .ok 0 := by
  unfold refused
  split <;> simp

theorem written_eq_ok {verbose : Bool} {path text : Text} {w : World}
    (h : (written verbose path text w).1 = .ok 0) :
    ∃ s after, text = Text.ofString s ∧ w.directory.write path (Utf8.encode s.toList) = .ok after ∧
      written verbose path text w = (.ok 0, World.noted { w with directory := after } verbose
        [.info ("transpiler.cli: Wrote " ++ path.shown)]) := by
  unfold written at h ⊢
  cases hopen : w.directory.write path [] with
  | error e => simp [hopen] at h
  | ok opened =>
    cases hstrict : text.strict with
    | error stray => simp [hopen, hstrict] at h
    | ok s =>
      cases hwrite : w.directory.write path (Utf8.encode s.toList) with
      | error e => simp [hopen, hstrict, hwrite] at h
      | ok after => exact ⟨s, after, Text.strict_eq_ok_iff.1 hstrict, hwrite, by simp only [hwrite]⟩

theorem ending_refused (options : Options) (f : Failure) (directory : Directory) (stderr : String)
    (path? : Option Text) (name : Text) :
    Ending directory path? name (refused options f { directory, stderr }).1
      (refused options f { directory, stderr }).2 := by
  unfold refused
  split <;> exact .failed _ (by simp) (by simp)

section
variable [Locale]

theorem received_of_decoded {stdin : Bytes} {text : Text} (h : decoded stdin = .ok text) :
    received stdin = .ok text := by
  unfold received
  split
  · rw [decodedBytewise, h]
  · exact h

theorem input_ne_encoding (directory : Directory) (stdin : Bytes) (options : Options)
    (stray : Text.Stray) : input directory stdin options ≠ .error (.encoding stray) := by
  have hdecode (text : Except Utf8.Fault Text) :
      text.mapError Abort.decoding ≠ .error (.encoding stray) := by
    cases text <;> exact nofun
  unfold input
  cases given? options.file with
  | none => exact hdecode _
  | some path =>
    dsimp only
    cases directory.read path with
    | error e => exact nofun
    | ok bytes => exact hdecode _

theorem ending_delivered {options : Options} {output : Text}
    (houtput : options.entryPoint.isScalar → output.isScalar) (directory : Directory) (stderr : String) :
    Ending directory (given? options.output) options.entryPoint
      (delivered options output { directory, stderr }).1
      (delivered options output { directory, stderr }).2 := by
  unfold delivered
  split
  · next hpath =>
    unfold printed
    split
    · exact .failed _ (by simp) fun _ _ => hpath
    · exact .printed _ _ hpath
  · next path hpath =>
    unfold written
    dsimp only
    split
    · exact .failed _ (by simp) (by simp)
    · next after hopen =>
      split
      · next stray hstrict =>
        refine .emptied stray _ hpath (Bool.eq_false_iff.2 fun hname => ?_) hopen
        obtain ⟨s, rfl⟩ := Text.exists_ofString (houtput hname)
        rw [← Text.ofString_append, Text.strict_ofString] at hstrict
        cases hstrict
      · split
        · exact .failed _ (by simp) (by simp)
        · exact .written _ hpath (by assumption)

variable [Json.Edition]

theorem ending_execute {options : Options} (h : options.stats = true → options.fromAst = false)
    (directory : Directory) (stdin : Bytes) (clock : Clock) :
    Ending directory (given? options.output) options.entryPoint
      ((execute stdin clock options).run.run { directory }).1
      ((execute stdin clock options).run.run { directory }).2 := by
  rw [execute_run]
  split
  · next abort hinput =>
    refine .failed _ (by simp) fun stray heq => ?_
    obtain rfl : abort = _ := Except.error.inj heq
    exact absurd hinput (input_ne_encoding directory stdin options stray)
  · next text _ =>
    split
    · exact ending_refused options _ directory _ _ _
    · next notes output hproduce =>
      refine ending_delivered (fun hname => ?_) directory _
      obtain ⟨program, hprogram⟩ := result_of_produce h (congrArg Prod.snd hproduce)
      exact isScalar_result hname hprogram

/-- A run that succeeds with an output path has found an output that is a string, and has written it. -/
theorem exists_written {directory : Directory} {stdin : Bytes} {clock : Clock}
    {options : Options} {path : Text} (hpath : given? options.output = some path)
    (h : ((execute stdin clock options).run.run { directory }).1 = .ok 0) :
    ∃ text notes s after stderr,
      input directory stdin options = .ok text ∧
      produce options clock text = (notes, .ok (Text.ofString s)) ∧
      directory.write path (Utf8.encode (s ++ "\n").toList) = .ok after ∧
      (execute stdin clock options).run.run { directory } =
        (.ok 0, { directory := after, stderr }) := by
  rw [execute_run] at h ⊢
  dsimp only at h ⊢
  cases hinput : input directory stdin options with
  | error abort => simp [hinput] at h
  | ok text =>
    rcases hproduce : produce options clock text with ⟨notes, f | output⟩
    · simp only [hinput, hproduce] at h
      exact absurd h (refused_ne_ok _ _ _)
    · simp only [hinput, hproduce, delivered, hpath] at h ⊢
      obtain ⟨s, after, htext, hwrite, hworld⟩ := written_eq_ok h
      have hoption : output.isScalar := by
        have hs := Text.isScalar_ofString s
        rw [← htext, Text.isScalar_append, Bool.and_eq_true] at hs
        exact hs.1
      obtain ⟨t, rfl⟩ := Text.exists_ofString hoption
      rw [← Text.ofString_append] at htext
      obtain rfl := Text.ofString_injective htext
      exact ⟨text, notes, t, after, _, rfl, hproduce, hwrite, hworld⟩

theorem execute_printed {directory : Directory} {stdin : Bytes} {clock : Clock} {options : Options}
    (hpath : given? options.output = none) {text : Text} {s : String} {notes : List Note}
    (hinput : input directory stdin options = .ok text)
    (hproduce : produce options clock text = (notes, .ok (Text.ofString s))) :
    (execute stdin clock options).run.run { directory } =
      (.ok 0, { directory, stdout := Text.ofString (s ++ "\n"), stderr := channel options.verbose notes }) := by
  rw [execute_run]
  simp only [hinput, hproduce, delivered, hpath, ← Text.ofString_append, printed_ofString, World.noted,
    String.empty_append, List.nil_append]

variable [Edition]

theorem ending_conduct (directory : Directory) (stdin : Bytes) (clock : Clock) (argv : List Text) :
    Ending directory (outputPath? argv) (entryName argv) (conduct directory stdin clock argv).1
      (conduct directory stdin clock argv).2 := by
  cases h : parse argv with
  | error e =>
    simp only [conduct, session, outputPath?, entryName, h]
    exact .failed _ (show (.ok 2 : Except Abort Nat) ≠ .ok 0 by simp) fun _ heq => nomatch heq
  | ok request =>
    cases request with
    | help =>
      simp only [conduct, session, outputPath?, entryName, h, print_run, printed_ofString]
      exact .printed _ _ rfl
    | run options =>
      have hstats : options.stats = true → options.fromAst = false := by
        have hclash := (parse_eq_run_iff.1 h).2
        intro hstats
        simp_all
      rw [conduct_of_parse h]
      simp only [outputPath?, entryName, h]
      exact ending_execute hstats directory stdin clock

end

/-- What an argument of the single byte `ff` is read as. -/
def strayName : Text := [.surrogate ⟨0x4FF, by decide⟩]

end Command
end AwaitScript
