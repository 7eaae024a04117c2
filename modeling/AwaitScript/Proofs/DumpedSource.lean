import AwaitScript.Proofs.SourceGrammar
import AwaitScript.Proofs.WireRoundTrip

/-! What is dumped for a source text is loaded again as the same program, unless the text has a float too
large to be finite: such a number has no JSON, and the `null` in its place is refused. -/
namespace AwaitScript

namespace DecimalDigit

theorem value?_lt {c : Char} {n : Nat} (h : value? c = some n) : n < 10 := by
  obtain ⟨z, hz, rfl⟩ := Option.map_eq_some_iff.1 h
  have := List.find?_some hz
  simp only [Bool.and_eq_true, decide_eq_true_eq] at this
  omega

theorem number_lt (digits : List Char) : number digits < 10 ^ digits.length := by
  induction digits using List.reverseRecOn with
  | nil => decide
  | append_singleton digits c ih =>
    have hc : (value? c).getD 0 < 10 := by
      cases h : value? c with
      | none => decide
      | some n => exact value?_lt h
    rw [number, List.foldl_append, ← number, List.length_append, List.length_singleton, pow_succ]
    simp only [List.foldl_cons, List.foldl_nil]
    omega

end DecimalDigit

/-! ### The integers of a program -/

namespace Grammar
open Node
variable [Json.Edition] {s : Symbol}

def Symbol.All (P : Node → Prop) : (s : Symbol) → s.Value → Prop
  | .statements, ns | .parameter, ns => ∀ m ∈ listSubnodes ns, P m
  | .statement, n | .expression, n | .call, n | .atom, n => ∀ m ∈ n.subnodes, P m
  | .entry, e => (∀ m ∈ e.1.subnodes, P m) ∧ ∀ m ∈ e.2.subnodes, P m
  | .list item, vs | .more item, vs => ∀ v ∈ vs, item.All P v

theorem isTaken_integer {digits : List Char} {n : Node}
    (h : Surface.readInteger digits = .ok n) : ∀ m ∈ n.subnodes, m.isTaken := by
  unfold Surface.readInteger at h
  split at h
  · cases h
  · next hl =>
    cases h
    have hn : Json.digits (DecimalDigit.number digits) ≤ Json.numberLimit := by
      rw [Json.digits, Int.natAbs_natCast, Nat.length_toDigits_le_iff (by decide) (by decide)]
      refine (DecimalDigit.number_lt digits).trans_le (Nat.pow_le_pow_right (by decide) ?_)
      exact Nat.le_of_not_lt hl
    simp [subnodes, isTaken, Json.fits_iff, hn]

theorem isTaken_assign {target value n : Node} (h : Surface.assign target value = .ok n)
    (ht : ∀ m ∈ target.subnodes, m.isTaken) (hv : ∀ m ∈ value.subnodes, m.isTaken) :
    ∀ m ∈ n.subnodes, m.isTaken := by
  unfold Surface.assign at h
  split at h
  · cases h
    rw [subnodes, List.forall_mem_cons, List.forall_mem_append]
    exact ⟨rfl, ht, hv⟩
  · split at h
    · cases h
      rw [subnodes, List.forall_mem_cons]
      exact ⟨rfl, hv⟩
    · cases h

/-- The integers of a program have at most as many digits as their text, so the reader takes them. -/
theorem isTaken_of_build {d : Derivation s} {v : s.Value} (h : d.build = .ok v) :
    s.All (fun n => n.isTaken) v := by
  induction d with
  | noStatement | noItem | noMore | lastComma =>
    cases h
    simp [Symbol.All, listSubnodes]
  | statement first rest hf hr =>
    obtain ⟨n, hn, h⟩ := bind_eq_ok_iff.1 h
    obtain ⟨ns, hns, h⟩ := bind_eq_ok_iff.1 h
    cases h
    exact List.forall_mem_append.2 ⟨hf hn, hr hns⟩
  | firstItem first rest hf hr | next first rest hf hr =>
    obtain ⟨n, hn, h⟩ := bind_eq_ok_iff.1 h
    obtain ⟨ns, hns, h⟩ := bind_eq_ok_iff.1 h
    cases h
    exact List.forall_mem_cons.2 ⟨hf hn, hr hns⟩
  | expression e he => exact he h
  | call c hc => exact hc h
  | atom a ha => exact ha h
  | assignment target value ht hv =>
    obtain ⟨n, hn, h⟩ := bind_eq_ok_iff.1 h
    obtain ⟨m, hm, h⟩ := bind_eq_ok_iff.1 h
    exact isTaken_assign h (ht hn) (hv hm)
  | invocation callee arguments hc ha =>
    obtain ⟨n, hn, h⟩ := bind_eq_ok_iff.1 h
    obtain ⟨ns, hns, h⟩ := bind_eq_ok_iff.1 h
    cases h
    simp only [Symbol.All, subnodes, List.forall_mem_cons, List.forall_mem_append, forall_listSubnodes]
    exact ⟨rfl, hc hn, ha hns⟩
  | function parameters body hp hb =>
    obtain ⟨ps, hps, h⟩ := bind_eq_ok_iff.1 h
    obtain ⟨ns, hns, h⟩ := bind_eq_ok_iff.1 h
    cases h
    have hp := hp hps
    simp only [Symbol.All, forall_listSubnodes] at hp
    simp only [Symbol.All, subnodes, List.forall_mem_cons, List.forall_mem_append, forall_parameterSubnodes]
    exact ⟨rfl, hp, hb hns⟩
  | object entries he =>
    obtain ⟨es, hes, rfl⟩ := map_eq_ok_iff.1 h
    simp only [Symbol.All, subnodes, List.forall_mem_cons, forall_entrySubnodes]
    exact ⟨rfl, he hes⟩
  | array items hi =>
    obtain ⟨ns, hns, rfl⟩ := map_eq_ok_iff.1 h
    simp only [Symbol.All, subnodes, List.forall_mem_cons, forall_listSubnodes]
    exact ⟨rfl, hi hns⟩
  | int digits => exact isTaken_integer h
  | imports name text | string text =>
    obtain ⟨value, -, rfl⟩ := map_eq_ok_iff.1 h
    simp [Symbol.All, subnodes, isTaken]
  | identifier text | float whole fraction | boolean value | parameter name | shorthand key =>
    cases h
    simp [Symbol.All, subnodes, listSubnodes, isTaken, Surface.readFloat]
  | default name value hv =>
    obtain ⟨n, hn, rfl⟩ := map_eq_ok_iff.1 h
    simpa [Symbol.All, subnodes, listSubnodes, isTaken] using hv hn
  | pair key value hv =>
    obtain ⟨n, hn, rfl⟩ := map_eq_ok_iff.1 h
    simpa [Symbol.All, subnodes, isTaken] using hv hn

theorem isTaken_of_parse {source : String} {program : Program} (h : Source.parse source = .ok program) :
    ∀ m ∈ listSubnodes program, m.isTaken := by
  obtain ⟨d, -, hb⟩ := (parse_eq_ok_iff source program).1 h
  exact isTaken_of_build hb

end Grammar

/-! ### Loading what was dumped -/

namespace Source

/-- What is dumped for a source text is loaded as the same program exactly if all its floats are finite;
otherwise the load fails with one issue for each float that is not. -/
theorem load_dump_iff_finite [Json.Edition] {source : String} {program : Program} (hp : parse source = .ok program)
    {indent : Option Nat} {text : String} (hw : program.dump indent = .ok text)
    (hd : Node.listNesting program ≤ Json.depthLimit) :
    (Program.load text = .ok program ↔ ∀ n ∈ Node.listSubnodes program, n.isInfinite = false) ∧
    ((∃ n ∈ Node.listSubnodes program, n.isInfinite) → ∃ issues, Program.load text = .error issues ∧
      issues.length = (Node.listSubnodes program).countP Node.isInfinite ∧
      ∀ issue ∈ issues, issue.cause = .scalar .floatType) := by
  have hl := Program.loads_dump hw (Grammar.isTaken_of_parse hp) hd
  have hzero : (∀ n ∈ Node.listSubnodes program, n.isInfinite = false) ↔
      (Node.listSubnodes program).countP Node.isInfinite = 0 := by
    simp only [List.countP_eq_zero, Bool.not_eq_true]
  rw [hzero]
  cases hx : Program.load text with
  | ok p =>
    rw [hx] at hl
    obtain ⟨rfl, hc⟩ := hl
    refine ⟨iff_of_true rfl hc, ?_⟩
    rintro ⟨n, hn, hi⟩
    rw [hzero.2 hc n hn] at hi
    cases hi
  | error issues =>
    rw [hx] at hl
    obtain ⟨hlen, hpos, hcause⟩ := hl
    exact ⟨iff_of_false (by simp) hpos.ne', fun _ => ⟨issues, rfl, hlen, hcause⟩⟩

theorem load_dump_iff_finite_half :
    ∃ program text, parse "[0.5, \"x\"]" = .ok program ∧ program.dump (some 2) = .ok text ∧
      Node.listNesting program ≤ Json.depthLimit ∧ Program.load text = .ok program := by
  have hs : surface "[0.5, \"x\"]".toList =
      .ok [.expression (.array [.float "0" "5", .string "\"x\""])] := by cbv
  have hf : Surface.readFloat ['0'] ['5'] =
      .float (.finite false ⟨4602678819172646912, by decide⟩) := congrArg Node.float (by decide +kernel)
  have hp : parse "[0.5, \"x\"]" = .ok [.array [.float (.finite false ⟨4602678819172646912, by decide⟩),
      .string [.scalar 'x']]] := by
    rw [parse, hs, ← hf]
    rfl
  refine ⟨_, _, hp, rfl, by decide, ?_⟩
  exact (load_dump_iff_finite hp rfl (by decide)).1.2 (by decide)

def tooLarge : List Char := '1' :: List.replicate 310 '0'

theorem parse_tooLarge :
    parse (String.ofList (tooLarge ++ ['.', '0'])) = .ok [.float (.infinite false)] := by
  have hs : Lexeme.scan (tooLarge ++ ['.', '0']) = [⟨.float (String.ofList tooLarge) "0", 0⟩] := by
    decide +kernel
  have hf : Surface.readFloat tooLarge ['0'] = .float (.infinite false) :=
    congrArg Node.float (by decide +kernel)
  have he : Surface.elaborateStatements [.expression (.float (String.ofList tooLarge) "0")] =
      .ok [Surface.readFloat (String.ofList tooLarge).toList ['0']] := rfl
  rw [String.toList_ofList, hf] at he
  rw [parse, surface, String.toList_ofList, hs]
  exact congrArg (Except.mapError _) he

theorem load_refuses_dumped :
    ∃ program text, parse (String.ofList (tooLarge ++ ['.', '0'])) = .ok program ∧
      program.dump none = .ok text ∧ Node.listNesting program ≤ Json.depthLimit ∧
      Program.load text = .error [⟨.scalar .floatType, [.index 0, .key "float", .key "value"]⟩] := by
  have hw : Program.dump [.float (.infinite false)] none =
      .ok "[\x7b\"type\":\"float\",\"value\":null\x7d]" := by cbv
  exact ⟨_, _, parse_tooLarge, hw, by decide, by cbv⟩

end Source

end AwaitScript
