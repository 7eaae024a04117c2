import AwaitScript.Proofs.FlattenedLines

/-! A grammar for the trees that lowering builds. Statements with one body make up a sequence, and a
statement that opens bodies is a block, in which lines and sequences take turns. -/
namespace AwaitScript.Emission

namespace Shape

mutual

/-- Statements with one body, all of them lines or all of them blocks. -/
inductive IsSequence : Emission → Prop
  | lines {texts : List String} (hne : texts ≠ []) : IsSequence (group (texts.map line))
  | blocks {bs : List Emission} (hne : bs ≠ []) (h : ∀ b ∈ bs, IsBlock b) : IsSequence (group bs)

/-- A statement among blocks: a single line, or a line with sequences and lines in turn after it. -/
inductive IsBlock : Emission → Prop
  | single (text : String) : IsBlock (group [line text])
  | opens (text : String) {rest : List Emission} (h : InTurn rest) : IsBlock (group (line text :: rest))

/-- A sequence and a line, once or several times. -/
inductive InTurn : List Emission → Prop
  | last {s : Emission} (hs : IsSequence s) (text : String) : InTurn [s, line text]
  | more {s : Emission} (hs : IsSequence s) (text : String) {rest : List Emission} (h : InTurn rest) :
      InTurn (s :: line text :: rest)

end

theorem InTurn.length {ps : List Emission} (h : InTurn ps) : 2 ≤ ps.length ∧ Even ps.length := by
  induction ps using List.twoStepInduction with
  | nil => cases h
  | singleton p => cases h
  | cons_cons p q ps ih _ =>
    cases h with
    | last => simp
    | more _ _ h =>
      have hps := ih h
      simp only [List.length_cons]
      exact ⟨by omega, by simpa [Nat.even_add_one] using hps.2⟩

variable {P : String → Prop}

theorem inTurn_of_parts {ps : List Emission}
    (hs : ∀ s, group s ∈ ps → Sequence P s → IsSequence (group s)) (h : Parts (Sequence P) P ps) :
    ∃ text rest, ps = line text :: rest ∧ (rest = [] ∨ InTurn rest) := by
  induction h with
  | last t => exact ⟨t, [], rfl, .inl rfl⟩
  | @opens t s t' rest hseq _ _ ih =>
    have hhead : IsSequence (group s) := hs s (by simp) hseq
    obtain ⟨text, tail, heq, hturn⟩ := ih fun s' hmem => hs s' (by simp_all)
    cases heq
    refine ⟨t, _, rfl, .inr ?_⟩
    rcases hturn with rfl | hturn
    · exact .last hhead t'
    · exact .more hhead t' hturn

theorem isBlock_of_parts {ps : List Emission}
    (hs : ∀ s, group s ∈ ps → Sequence P s → IsSequence (group s)) (h : Parts (Sequence P) P ps) :
    IsBlock (group ps) := by
  obtain ⟨text, rest, rfl, rfl | hturn⟩ := inTurn_of_parts hs h
  · exact .single text
  · exact .opens text hturn

-- by induction on the tree: a sequence holds blocks, and what a block opens stands two levels further down
theorem isSequence_of_sequence {s : List Emission} (h : Sequence P s) : IsSequence (group s) := by
  have hboth (e : Emission) : (∀ s, e = group s → Sequence P s → IsSequence e) ∧
      ∀ ps, e = group ps → Parts (Sequence P) P ps → IsBlock e := by
    induction e using Emission.induction with
    | line text => simp
    | group children ih =>
      refine ⟨fun s hs hseq => ?_, fun ps hps hparts => ?_⟩
      · cases hs
        cases hseq with
        | lines hne _ => exact .lines hne
        | @blocks bs hne hparts _ =>
          refine .blocks (by simpa using hne) fun b hb => ?_
          obtain ⟨ps, hps, rfl⟩ := List.mem_map.1 hb
          exact (ih _ hb).2 ps rfl (hparts ps hps)
      · cases hps
        exact isBlock_of_parts (fun s hmem => (ih _ hmem).1 s rfl) hparts
  exact (hboth (group s)).1 s rfl h

/-- A fragment is a line, or a block with an odd number of parts, at least three. -/
theorem cases_of_fragment {e : Emission} (h : Fragment P e) :
    (∃ text, e = line text) ∨
      ∃ children, e = group children ∧ IsBlock e ∧ 3 ≤ children.length ∧ Odd children.length := by
  cases e with
  | line text => exact .inl ⟨text, rfl⟩
  | group children =>
    refine .inr ⟨children, rfl, ?_⟩
    have hparts : Parts (Sequence P) P children := h.shape
    obtain ⟨text, rest, rfl, hrest⟩ := inTurn_of_parts (fun _ _ hs => isSequence_of_sequence hs) hparts
    rcases hrest with rfl | hturn
    · cases h.proper
    · have hlength := hturn.length
      simp only [List.length_cons]
      exact ⟨.opens text hturn, by omega, hlength.2.add_one⟩

end Shape
end Emission

namespace Program
open Emission Emission.Shape Lowering

/-- The tree of a program follows the grammar: it is an empty group if the program is empty, and a sequence
otherwise. Each node that is lowered for itself gives a line, or a block that opens something. -/
theorem lower_follows_shape :
    (∀ (program : Program) (e : Emission), program.lower = .ok e →
      program = [] ∧ e = .group [] ∨ IsSequence e) ∧
    ∀ (node : Node) (e : Emission), Lowering.lower node = .ok e →
      (∃ text, e = .line text) ∨
        ∃ children, e = .group children ∧ IsBlock e ∧ 3 ≤ children.length ∧ Odd children.length := by
  have hnode (node : Node) := (Lowering.lower_outcome (P := fun _ => True) (fun _ _ => trivial) node
    fun _ _ _ _ => trivial).1
  refine ⟨fun program e h => ?_, fun node e h => cases_of_fragment ((hnode node).of_ok h).toFragment⟩
  obtain ⟨fragments, hfragments, rfl⟩ := map_eq_ok_iff.1 h
  have hstatements := (lowerList_outcome fun n (_ : n ∈ program) => hnode n).of_ok hfragments
  by_cases hprogram : program = []
  · subst hprogram
    cases hfragments
    exact .inl ⟨rfl, rfl⟩
  · exact .inr (isSequence_of_sequence (sequence_siblings (lowerList_ne_nil hfragments hprogram) hstatements))

def openings : Node :=
  .function [[.assignment (.identifier "a") (.function [[.identifier "b"]] [.identifier "b"])]]
    [.invocation (.identifier "f") [.function [] [.identifier "a"]], .identifier "a"]

def openingsTree : Emission :=
  .group [.line "async (a = async (b) => \x7b", .group [.line "b"], .line "\x7d) => \x7b",
    .group [.group [.line "(await f(async () => \x7b", .group [.line "a"], .line "\x7d))"],
      .group [.line "a"]], .line "\x7d"]

def mixedTree : Emission := .group [.group [.line "-1"], openingsTree]

theorem lower_follows_shape_openings :
    (Program.lower [.integer (-1), openings] = .ok mixedTree ∧
      (([.integer (-1), openings] : Program) = [] ∧ mixedTree = .group [] ∨ IsSequence mixedTree)) ∧
    Lowering.lower openings = .ok openingsTree ∧
      ((∃ text, openingsTree = .line text) ∨
        ∃ children, openingsTree = .group children ∧ IsBlock openingsTree ∧ 3 ≤ children.length ∧
          Odd children.length) := by
  have hprogram : Program.lower [.integer (-1), openings] = .ok mixedTree := by cbv
  have hnode : Lowering.lower openings = .ok openingsTree := by cbv
  exact ⟨⟨hprogram, lower_follows_shape.1 _ _ hprogram⟩, hnode, lower_follows_shape.2 _ _ hnode⟩

end Program
end AwaitScript
