import AwaitScript.Proofs.CommandEffects
import AwaitScript.Proofs.LoweringOutcome
import AwaitScript.Proofs.StoredText

/-!
A source can be compiled at once, or its tree can be stored in a file and compiled from there: both
ways end in the same way, with the same words.
-/

namespace AwaitScript.Command

theorem channel_append (verbose : Bool) (notes others : List Note) :
    channel verbose (notes ++ others) = channel verbose notes ++ channel verbose others := by
  simp [channel, String.join_append]

theorem channel_info (line : String) : channel false [.info line] = "" := rfl

section
variable [Json.Edition]

theorem channel_obtain (options : Options) (text : Text) :
    channel false (obtain options text).1 = "" := by
  unfold obtain
  split
  · rfl
  · dsimp only
    split <;> rfl

theorem channel_produce {options : Options} (hstats : options.stats = false) (clock : Clock)
    (text : Text) : channel false (produce options clock text).1 = "" := by
  have h := channel_obtain options text
  unfold produce
  split
  · rfl
  rcases hobtain : obtain options text with ⟨notes, f | program⟩
  · rw [hobtain] at h
    exact h
  · rw [hobtain] at h
    simp only [hstats, Bool.false_eq_true, if_false]
    split
    · exact h
    · split <;> rw [channel_append, h, channel_info, String.append_empty]

end

def reported [Locale] (options : Options) (result : Except Failure Text) (w : World) :
    Except Abort Nat × World :=
  match result with
  | .error f => refused options f w
  | .ok output => delivered options output w

/-- A run that is neither verbose nor measured ends as its result does. -/
theorem conduct_reported [Json.Edition] [Locale] [Edition] {argv : List Text} {options : Options}
    {directory : Directory} {stdin : Bytes} {text : Text} (hargv : parse argv = .ok (.run options))
    (hstats : options.stats = false) (hverbose : options.verbose = false)
    (hinput : input directory stdin options = .ok text) (clock : Clock) :
    conduct directory stdin clock argv =
      reported options ((obtain options text).2.bind (result options)) { directory } := by
  have hnotes := channel_produce hstats clock text
  rw [conduct_of_parse hargv, execute_run, ← produce_result (by simp [hstats]) clock]
  rcases hproduce : produce options clock text with ⟨notes, f | output⟩
  all_goals
    rw [hproduce] at hnotes
    simp only [hinput, World.noted, hverbose, hproduce, hnotes, String.append_empty, reported]

theorem reported_written [Locale] {options : Options} {path : Text} {output : String}
    {directory after : Directory} (hverbose : options.verbose = false)
    (hpath : given? options.output = some path)
    (hwrite : directory.write path (Utf8.encode (output ++ "\n").toList) = .ok after) :
    reported options (.ok output) { directory } = (.ok 0, { directory := after }) := by
  obtain ⟨location, hresolve, hfile, hslash, -⟩ := Directory.write_eq_ok_iff.1 hwrite
  have hopen : directory.write path [] = .ok _ :=
    Directory.write_eq_ok_iff.2 ⟨location, hresolve, hfile, hslash, rfl⟩
  simp only [reported, delivered, hpath, written, hopen, ← Text.ofString_append, Text.strict_ofString,
    hwrite, World.noted, hverbose, channel_info, String.append_empty]

def IsReported {α : Type} (x : Except Failure α) : Prop :=
  (∃ output, x = .ok output) ∨ ∃ f message, x = .error f ∧ failureMessage? f = some message

theorem IsReported.map {α β : Type} {x : Except Failure α} (h : IsReported x) (g : α → β) :
    IsReported (x.map g) := by
  rcases h with ⟨output, rfl⟩ | ⟨f, message, rfl, hmessage⟩
  · exact .inl ⟨g output, rfl⟩
  · exact .inr ⟨f, message, rfl, hmessage⟩

theorem lowered_isReported {α : Type} {program : Program}
    (hs : ∀ n ∈ Node.listSubnodes program, n.isEncodable) (g : Emission → α) :
    IsReported ((program.lower.map g).mapError Failure.ofLowerError) := by
  have h := Program.lower_outcome program
  cases hn : program.firstUnsupported? with
  | none =>
    rw [hn] at h
    obtain ⟨body, hbody, -⟩ := h
    exact .inl ⟨g body, by rw [hbody]; rfl⟩
  | some n =>
    rw [hn] at h
    have hlower : program.lower = .error (.unsupported n) := h
    have hshown := Node.forall_subnodes_list hs n (List.mem_of_find?_eq_some hn)
    obtain ⟨content, hcontent⟩ := Option.isSome_iff_exists.1 ((Program.content?_isSome n).2 hshown)
    refine .inr ⟨.unsupported n.kind.name (unsupportedMessage n.kind.name content), _, ?_, rfl⟩
    simp [hlower, Except.map, Except.mapError, Failure.ofLowerError, hcontent]

theorem result_isReported {program : Program}
    (hs : ∀ n ∈ Node.listSubnodes program, n.isEncodable) (options : Options) :
    IsReported (result options program) := by
  unfold result
  split
  · exact .map (.inl (Program.exists_dump hs (some 2))) _
  split
  · exact (lowered_isReported hs Emission.dump).map _
  · exact lowered_isReported hs _

/-- A run for a program that can be shown ends in the same way wherever it takes place. It is not aborted
unless its output cannot be printed because of the name of the entry point. -/
theorem exists_reported [Locale] {program : Program}
    (hs : ∀ n ∈ Node.listSubnodes program, n.isEncodable) {options : Options}
    (houtput : options.output = none) (hverbose : options.verbose = false) :
    ∃ ending stdout stderr, (options.entryPoint.isScalar → ∃ exit, ending = .ok exit) ∧
      ∀ directory, reported options (result options program) { directory } =
        (ending, { directory, stdout, stderr }) := by
  rcases result_isReported hs options with ⟨output, h⟩ | ⟨f, message, h, hmessage⟩
  · have hdelivered (directory : Directory) :
        reported options (result options program) { directory } =
          printed (output ++ Text.ofString "\n") { directory } := by
      simp only [h, reported, delivered, houtput, given?, Option.filter_none]
    cases hcheck : (output ++ Text.ofString "\n").checkFrom Locale.keeps 0 with
    | ok _ =>
      refine ⟨.ok 0, output ++ Text.ofString "\n", "", fun _ => ⟨0, rfl⟩, fun directory => ?_⟩
      rw [hdelivered, printed, hcheck]
      rfl
    | error stray =>
      refine ⟨.error (.encoding stray), [], "", fun hname => ?_, fun directory => ?_⟩
      · obtain ⟨s, rfl⟩ := Text.exists_ofString (isScalar_result hname h)
        rw [← Text.ofString_append, Text.check_ofString] at hcheck
        cases hcheck
      · rw [hdelivered, printed, hcheck]
  · refine ⟨.ok 1, [], "error: " ++ message ++ "\n", fun _ => ⟨1, rfl⟩, fun directory => ?_⟩
    simp [h, reported, refused, hmessage, World.noted, hverbose, channel, Note.shown?]

/-! ### The two routes -/

theorem given?_some {path : Text} (h : path ≠ []) : given? (some path) = some path := by
  simp [given?, Option.filter, h]

theorem input_of_read [Locale] {options : Options} {directory : Directory} {path : Text} {bytes : Bytes}
    {text : List Char} (hfile : options.file = some path) (hread : directory.read path = .ok bytes)
    (hdecode : Utf8.decode bytes = .ok text) (stdin : Bytes) :
    input directory stdin options = .ok (String.ofList (LineBreak.normalize text)) := by
  have hdecoded : decoded bytes = .ok (String.ofList (LineBreak.normalize text)) := by
    rw [decoded, hdecode, Text.ofString, String.toList_ofList]
    rfl
  rw [input, hfile, given?_some (Directory.ne_nil_of_read hread)]
  change ((directory.read path).mapError Abort.path >>= fun bytes => _) = _
  rw [hread]
  change (decoded bytes).mapError _ = _
  rw [hdecoded]
  rfl

section
variable [Json.Edition]

theorem obtain_source {options : Options} (h : options.fromAst = false) {text : String}
    {program : Program} (hparse : Source.parse text = .ok program) :
    (obtain options text).2 = .ok program := by
  simp [obtain, h, programOf_ofString, Source.program, hparse, Except.mapError]

theorem obtain_tree {options : Options} (h : options.fromAst = true) {text : String}
    {program : Program} (hload : Program.load text = .ok program) :
    (obtain options text).2 = .ok program := by
  simp [obtain, h, Program.loadText, hload, Except.mapError]

variable [Locale] [Edition]

/-- A run that stores the tree of a source ends well and without a word. A run on the stored tree then
ends as one on the source does that is given the same options: in the same way, with the same text on both
channels. It ends with a code, unless the name of the entry point is no string. This holds for programs that
compile and for those that do not, as long as their strings have no lone surrogates, their floats are finite
and their trees are within the limit for nesting. Both names have to be such that the command line takes
them for names, and the tree's file can be written. -/
theorem routes_agree {directory : Directory} {file tree : Text} {opts : List Text} {a b : Bool}
    {e : Text} {bytes : Bytes} {text : List Char} {program : Program}
    (hfile : classify file = .ok (.name file)) (htree : classify tree = .ok (.name tree))
    (hopts : parse (file :: opts) =
      .ok (.run { file := some file, astOnly := a, emissionOnly := b, entryPoint := e }))
    (hseparator : Text.ofString "--" ∉ opts) (hread : directory.read file = .ok bytes)
    (hdecode : Utf8.decode bytes = .ok text)
    (hparse : Source.parse (String.ofList (LineBreak.normalize text)) = .ok program)
    (hs : ∀ n ∈ Node.listSubnodes program, n.isEncodable)
    (hf : ∀ n ∈ Node.listSubnodes program, n.isInfinite = false)
    (hd : Node.listNesting program ≤ Json.depthLimit)
    (hwrite : ∀ bytes, ∃ after, directory.write tree bytes = .ok after) :
    ∃ after ending stdout stderr, (e.isScalar → ∃ exit, ending = .ok exit) ∧
      (∀ stdin clock, conduct directory stdin clock [file, "--ast-only", "-o", tree] =
        (.ok 0, { directory := after })) ∧
      (∀ here stdin clock, here.read file = .ok bytes →
        conduct here stdin clock (file :: opts) = (ending, { directory := here, stdout, stderr })) ∧
      ∀ stdin clock, conduct after stdin clock (tree :: "--from-ast" :: opts) =
        (ending, { directory := after, stdout, stderr }) := by
  obtain ⟨dumped, hdump⟩ := Program.exists_dump hs (some 2)
  obtain ⟨after, hafter⟩ := hwrite (Utf8.encode (dumped ++ "\n").toList)
  obtain ⟨ending, stdout, stderr, hcode, hreported⟩ := exists_reported hs
    (show Options.output { file := some file, astOnly := a, emissionOnly := b, entryPoint := e } = none
      from rfl) rfl
  have hload : Program.load (dumped ++ "\n") = .ok program := by
    rw [Program.load_newline hdump hd]
    exact Program.load_finite hdump (Grammar.isTaken_of_parse hparse) hd hf
  have hinput {here : Directory} {options : Options} (hhere : here.read file = .ok bytes)
      (hname : options.file = some file) := input_of_read hname hhere hdecode
  refine ⟨after, ending, stdout, stderr, hcode, fun stdin clock => ?_, fun here stdin clock hhere => ?_,
    fun stdin clock => ?_⟩
  · rw [conduct_reported (parse_storeTree hfile htree) rfl rfl (hinput hread rfl stdin),
      obtain_source rfl hparse]
    have hstored : result { file := some file, astOnly := true, output := some tree } program =
        .ok dumped := by
      rw [result, if_pos rfl, hdump]
      rfl
    exact (congrArg (reported _ · _) hstored).trans
      (reported_written rfl (given?_some (Directory.ne_nil_of_write hafter)) hafter)
  · rw [conduct_reported hopts rfl rfl (hinput hhere rfl stdin), obtain_source rfl hparse]
    exact hreported here
  · have hstored : input after stdin _ = .ok _ := input_of_read
      (show Options.file (readTree tree { file := some file, astOnly := a, emissionOnly := b, entryPoint := e }) =
        some tree from rfl) (Directory.read_write hafter) (Utf8.decode_encode _) stdin
    rw [Program.normalize_dump hdump, String.ofList_toList] at hstored
    rw [conduct_reported (parse_fromAst hfile htree hseparator hopts rfl) rfl rfl hstored,
      obtain_tree rfl hload]
    exact hreported after

end

/-- A source whose call cannot be compiled, because of its argument. -/
def accented : String := "f(\"\\u00e9\")"

theorem routes_agree_accented :
    ∃ after ending stdout stderr, ((Text.ofString "go").isScalar → ∃ exit, ending = .ok exit) ∧
      (∀ stdin clock, conduct { files := [([Text.ofString "p"], Utf8.encode accented.toList)] } stdin clock
        ["p", "--ast-only", "-o", "t"] = (.ok 0, { directory := after })) ∧
      (∀ here stdin clock, here.read "p" = .ok (Utf8.encode accented.toList) →
        conduct here stdin clock ["p", "-e", "go"] = (ending, { directory := here, stdout, stderr })) ∧
      ∀ stdin clock, conduct after stdin clock ["t", "--from-ast", "-e", "go"] =
        (ending, { directory := after, stdout, stderr }) := by
  have hparse : Source.parse (String.ofList (LineBreak.normalize accented.toList)) =
      .ok [.invocation (.identifier "f") [.string [.scalar 'é']]] := by cbv
  have hopts : parse ["p", "-e", "go"] = .ok (.run { file := some "p", entryPoint := "go" }) := by rfl
  have hread : Directory.read { files := [([Text.ofString "p"], Utf8.encode accented.toList)] } "p" =
      .ok (Utf8.encode accented.toList) := by rfl
  exact routes_agree (by rfl) (by rfl) hopts (by decide) hread (Utf8.decode_encode _) hparse (by decide)
    (by decide) (by decide) fun bytes => ⟨_, rfl⟩

end AwaitScript.Command
