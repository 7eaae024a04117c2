import AwaitScript.Emission.Lowering
import AwaitScript.Proofs.Splicing

/-! The shape of what lowering builds. A fragment is a line that may open sequences of statements on its
way and goes on with a line after each of them; splicing such fragments always succeeds and gives one
again. -/
namespace AwaitScript.Emission

def headText : List Emission → String
  | line text :: _ => text
  | _ => ""

/-- Lines and groups in turn, from a line to a line. What is opened satisfies `S`, and a line that follows
a group satisfies `P`. -/
inductive Parts (S : List Emission → Prop) (P : String → Prop) : List Emission → Prop
  | last (t : String) : Parts S P [line t]
  | opens (t : String) {s : List Emission} {t' : String} {rest : List Emission} (hs : S s) (ht : P t')
      (h : Parts S P (line t' :: rest)) : Parts S P (line t :: group s :: line t' :: rest)

/-- Statements with one body: either all of them are lines, or all of them are blocks. Each starts with a
line that satisfies `P`. -/
inductive Sequence (P : String → Prop) : List Emission → Prop
  | lines {ts : List String} (hne : ts ≠ []) (h : ∀ t ∈ ts, P t) : Sequence P (ts.map line)
  | blocks {bs : List (List Emission)} (hne : bs ≠ []) (h : ∀ b ∈ bs, Parts (Sequence P) P b)
      (hh : ∀ b ∈ bs, P (headText b)) : Sequence P (bs.map group)

/-- A line, or a group with more than a line in it. -/
structure Fragment (P : String → Prop) (e : Emission) : Prop where
  shape : Parts (Sequence P) P e.parts
  proper : ofParts e.parts = e

structure Statement (P : String → Prop) (e : Emission) : Prop extends Fragment P e where
  head : P (headText e.parts)

/-! ### Gluing -/

section

variable {S : List Emission → Prop} {P : String → Prop} {ps qs : List Emission}

theorem Parts.head (h : Parts S P ps) : ∃ t rest, ps = line t :: rest := by
  cases h with
  | last t => exact ⟨t, [], rfl⟩
  | opens t hs ht h => exact ⟨t, _, rfl⟩

theorem Parts.concat (h : Parts S P ps) : ∃ init t, ps = init ++ [line t] := by
  induction h with
  | last t => exact ⟨[], t, rfl⟩
  | @opens t s t' rest hs ht h ih =>
    obtain ⟨init, u, hu⟩ := ih
    exact ⟨line t :: group s :: init, u, by rw [hu]; rfl⟩

theorem Parts.startsWithLine (h : Parts S P ps) : startsWithLine ps := startsWithLine_iff.2 h.head

theorem Parts.endsInLine (h : Parts S P ps) : endsInLine ps := endsInLine_iff.2 h.concat

theorem of_append (hP : ∀ t, t ≠ "" → P t) {a : String} (h : P a) (b : String) : P (a ++ b) := by
  by_cases hab : a ++ b = ""
  · have ha : a = "" := (String.append_eq_empty_iff.1 hab).1
    rwa [hab, ← ha]
  · exact hP _ hab

theorem Parts.glue (hP : ∀ t, t ≠ "" → P t) (h : Parts S P ps) (hq : Parts S P qs) :
    Parts S P (glue ps qs) := by
  induction h with
  | last a =>
    cases hq with
    | last b => exact .last (a ++ b)
    | opens b hs ht h => exact .opens (a ++ b) hs ht h
  | @opens t s t' rest hs ht h ih =>
    obtain ⟨u, rest', hu⟩ := glue_head t' rest qs
    rw [glue_cons, glue_cons, hu]
    exact .opens t hs (of_append hP ht u) (hu ▸ ih)

theorem headText_glue (hP : ∀ t, t ≠ "" → P t) (h : Parts S P ps) (hh : P (headText ps)) :
    P (headText (glue ps qs)) := by
  obtain ⟨t, rest, rfl⟩ := h.head
  obtain ⟨u, rest', hu⟩ := glue_head t rest qs
  rw [hu]
  exact of_append hP hh u

theorem Parts.open (h : Parts S P ps) {s : List Emission} (hs : S s) {t : String} (ht : P t) :
    Parts S P (ps ++ [group s, line t]) := by
  induction h with
  | last a => exact .opens a hs ht (.last t)
  | opens a hs' ht' h ih => exact .opens a hs' ht' ih

/-! ### Splicing -/

theorem Parts.glued (hP : ∀ t, t ≠ "" → P t) (h : Parts S P ps) {fragments : List Emission}
    (hf : ∀ e ∈ fragments, Parts S P e.parts) :
    Parts S P (Emission.glue ps (Emission.glued fragments)) ∧
      (P (headText ps) → P (headText (Emission.glue ps (Emission.glued fragments)))) := by
  induction fragments generalizing ps with
  | nil => simpa [Emission.glued] using h
  | cons e fragments ih =>
    obtain ⟨hparts, hhead⟩ := ih (h.glue hP (hf e (by simp))) fun e h => hf e (by simp [h])
    rw [Emission.glued, ← glue_assoc]
    exact ⟨hparts, fun hh => hhead (headText_glue hP h hh)⟩

theorem fragment_ofParts (h : Parts (Sequence P) P ps) : Fragment P (ofParts ps) := by
  have hp := parts_ofParts h.startsWithLine
  exact ⟨hp.symm ▸ h, by rw [hp]⟩

theorem fragment_line (t : String) : Fragment P (line t) := ⟨.last t, rfl⟩

theorem concat_eq {fragments : List Emission} (hf : ∀ e ∈ fragments, Fragment P e) :
    concat fragments = .ok (ofParts (glue [line ""] (glued fragments))) := by
  refine concat_eq_ok_iff.2 ⟨⟨fun e he => (hf e he).shape.startsWithLine, fun e he => ?_⟩, rfl⟩
  exact (hf e (List.mem_of_mem_dropLast he)).shape.endsInLine

theorem concat_fragment (hP : ∀ t, t ≠ "" → P t) {fragments : List Emission}
    (hf : ∀ e ∈ fragments, Fragment P e) : ∃ e, concat fragments = .ok e ∧ Fragment P e := by
  have hparts := (Parts.last "").glued hP fun e h => (hf e h).shape
  exact ⟨_, concat_eq hf, fragment_ofParts hparts.1⟩

theorem concat_statement (hP : ∀ t, t ≠ "" → P t) {e : Emission} (he : Statement P e)
    {fragments : List Emission} (hf : ∀ e ∈ fragments, Fragment P e) :
    ∃ e', concat (e :: fragments) = .ok e' ∧ Statement P e' := by
  have hparts := he.shape.glued hP fun e h => (hf e h).shape
  refine ⟨_, concat_eq (List.forall_mem_cons.2 ⟨he.toFragment, hf⟩), ?_⟩
  rw [glued, ← glue_assoc, glue_empty he.shape.startsWithLine]
  refine ⟨fragment_ofParts hparts.1, ?_⟩
  rw [parts_ofParts hparts.1.startsWithLine]
  exact hparts.2 he.head

theorem statement_line {t : String} (ht : P t) : Statement P (line t) := ⟨fragment_line t, ht⟩

theorem join_fragment (hP : ∀ t, t ≠ "" → P t) (separator : String) {fragments : List Emission}
    (hf : ∀ e ∈ fragments, Fragment P e) : ∃ e, join separator fragments = .ok e ∧ Fragment P e := by
  refine concat_fragment hP ?_
  induction fragments with
  | nil => simp
  | cons e fragments ih =>
    have ih := ih fun e h => hf e (by simp [h])
    cases fragments with
    | nil => exact hf
    | cons e' fragments =>
      rw [List.intersperse_cons_cons]
      exact List.forall_mem_cons.2 ⟨hf e (by simp), List.forall_mem_cons.2 ⟨fragment_line separator, ih⟩⟩

theorem statement_open {e : Emission} (he : Statement P e) {s : List Emission} (hs : Sequence P s)
    {t : String} (ht : P t) : Statement P (group (e.parts ++ [group s, line t])) := by
  obtain ⟨t', rest, hp⟩ := he.shape.head
  have hh := he.head
  have hparts := he.shape.open hs ht
  rw [hp] at hh hparts ⊢
  refine ⟨⟨hparts, ?_⟩, hh⟩
  cases rest <;> rfl

theorem siblings_blocks {fragments : List Emission} (h : fragments.any isGroup) :
    Lowering.siblings fragments = (fragments.map parts).map group := by
  rw [Lowering.siblings, if_pos h, List.map_map]
  refine List.map_congr_left fun e _ => ?_
  cases e <;> rfl

theorem siblings_lines {fragments : List Emission} (h : ¬ fragments.any isGroup) :
    Lowering.siblings fragments = (fragments.map fun e => headText e.parts).map line := by
  rw [Lowering.siblings, if_neg h, List.map_map]
  refine (List.map_id fragments).symm.trans (List.map_congr_left fun e he => ?_)
  cases e with
  | line t => rfl
  | group cs => exact absurd (List.any_eq_true.2 ⟨_, he, rfl⟩) h

theorem sequence_siblings {fragments : List Emission} (hne : fragments ≠ [])
    (h : ∀ e ∈ fragments, Statement P e) : Sequence P (Lowering.siblings fragments) := by
  by_cases hg : fragments.any isGroup
  · rw [siblings_blocks hg]
    refine .blocks (by simpa using hne) ?_ ?_
    · exact List.forall_mem_map.2 fun e he => (h e he).shape
    · exact List.forall_mem_map.2 fun e he => (h e he).head
  · rw [siblings_lines hg]
    exact .lines (by simpa using hne) (List.forall_mem_map.2 fun e he => (h e he).head)

end

end AwaitScript.Emission
