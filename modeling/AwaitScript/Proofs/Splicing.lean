import AwaitScript.Emission.Loose
import AwaitScript.Proofs.Traversal

/-! What splicing makes of fragments. The parts of all fragments stay in their order, and only the two lines
at a seam become one; so a fragment must start with a line, and end in one if it is continued. -/
namespace AwaitScript.Emission

def parts : Emission → List Emission
  | line text => [line text]
  | group children => children

/-- The last line of the first continues with the first line of the second. -/
def glue : List Emission → List Emission → List Emission
  | [], ps => ps
  | [line a], line b :: rest => line (a ++ b) :: rest
  | e :: es, ps => e :: glue es ps

/-! ### Gluing -/

theorem glue_cons (e e' : Emission) (es ps : List Emission) :
    glue (e :: e' :: es) ps = e :: glue (e' :: es) ps := by
  cases e <;> rfl

theorem glue_append (init : List Emission) (a b : String) (rest : List Emission) :
    glue (init ++ [line a]) (line b :: rest) = init ++ line (a ++ b) :: rest := by
  induction init with
  | nil => rfl
  | cons e init ih =>
    cases init with
    | nil => cases e <;> exact congrArg _ ih
    | cons e' init => cases e <;> exact congrArg _ ih

@[simp] theorem glue_nil (ps : List Emission) : glue ps [] = ps := by
  induction ps with
  | nil => rfl
  | cons p ps ih => cases p <;> simp [glue, ih]

theorem glue_group_left (cs es ps : List Emission) : glue (group cs :: es) ps = group cs :: glue es ps := by
  cases es <;> rfl

theorem glue_group_right (a : String) (cs ps : List Emission) :
    glue [line a] (group cs :: ps) = line a :: group cs :: ps := rfl

theorem glue_head (t : String) (es ps : List Emission) :
    ∃ u rest, glue (line t :: es) ps = line (t ++ u) :: rest := by
  cases es with
  | cons e es => exact ⟨"", _, by rw [glue_cons, String.append_empty]⟩
  | nil =>
    cases ps with
    | nil => exact ⟨"", [], by rw [String.append_empty]; rfl⟩
    | cons p ps =>
      cases p with
      | line b => exact ⟨b, ps, rfl⟩
      | group cs => exact ⟨"", _, by rw [String.append_empty]; rfl⟩

theorem glue_cases (ps qs : List Emission) : glue ps qs = ps ++ qs ∨
    ∃ init a b rest, ps = init ++ [line a] ∧ qs = line b :: rest ∧
      glue ps qs = init ++ line (a ++ b) :: rest := by
  induction ps with
  | nil => exact .inl rfl
  | cons p ps ih =>
    cases ps with
    | nil =>
      cases p with
      | group cs => exact .inl rfl
      | line a =>
        cases qs with
        | nil => exact .inl rfl
        | cons q qs =>
          cases q with
          | group cs => exact .inl rfl
          | line b => exact .inr ⟨[], a, b, qs, rfl, rfl, rfl⟩
    | cons p' ps =>
      rw [glue_cons]
      obtain h | ⟨init, a, b, rest, hps, hqs, h⟩ := ih
      · exact .inl (by rw [h]; rfl)
      · exact .inr ⟨p :: init, a, b, rest, by rw [hps]; rfl, hqs, by rw [h]; rfl⟩

-- by induction on the first; one line can meet a line on both of its sides
theorem glue_assoc (ps qs rs : List Emission) : glue (glue ps qs) rs = glue ps (glue qs rs) := by
  induction ps with
  | nil => rfl
  | cons p ps ih =>
    cases ps with
    | cons p' ps =>
      obtain ⟨x, xs, hx⟩ : ∃ x xs, glue (p' :: ps) qs = x :: xs := by
        cases h : glue (p' :: ps) qs with
        | nil => obtain h' | ⟨_, _, _, _, _, _, h'⟩ := glue_cases (p' :: ps) qs <;> simp_all
        | cons x xs => exact ⟨x, xs, rfl⟩
      rw [glue_cons, glue_cons, ← ih, hx, glue_cons]
    | nil =>
      cases p with
      | group cs => rw [glue_group_left, glue_group_left, glue_group_left]; rfl
      | line a =>
        rcases qs with - | ⟨⟨b⟩ | ⟨cs⟩, qs⟩
        · rfl
        · rcases qs with - | ⟨q, qs⟩
          · rcases rs with - | ⟨⟨c⟩ | ⟨ds⟩, rs⟩
            · rfl
            · exact congrArg (line · :: rs) (String.append_assoc ..)
            · rfl
          · rw [glue_cons]; rfl
        · rw [glue_group_right, glue_cons, glue_group_left, glue_group_right]

def glued : List Emission → List Emission
  | [] => []
  | f :: fs => glue f.parts (glued fs)

theorem glued_append (fs gs : List Emission) : glued (fs ++ gs) = glue (glued fs) (glued gs) := by
  induction fs with
  | nil => rfl
  | cons f fs ih => rw [List.cons_append, glued, glued, ih, glue_assoc]

/-! ### Which fragments can be spliced -/

def startsWithLine (ps : List Emission) : Bool := ps.head?.any fun p => !p.isGroup

def endsInLine (ps : List Emission) : Bool := ps.getLast?.any fun p => !p.isGroup

theorem startsWithLine_iff {ps : List Emission} :
    startsWithLine ps ↔ ∃ text rest, ps = line text :: rest := by
  rcases ps with - | ⟨⟨text⟩ | ⟨cs⟩, ps⟩ <;> simp [startsWithLine, isGroup]

@[simp] theorem endsInLine_concat (init : List Emission) (p : Emission) :
    endsInLine (init ++ [p]) = !p.isGroup := by
  simp [endsInLine]

theorem endsInLine_iff {ps : List Emission} : endsInLine ps ↔ ∃ init text, ps = init ++ [line text] := by
  obtain rfl | ⟨init, p, rfl⟩ := List.eq_nil_or_concat' ps
  · simp [endsInLine]
  · cases p <;> simp [isGroup]

theorem glue_empty {ps : List Emission} (h : startsWithLine ps) : glue [line ""] ps = ps := by
  obtain ⟨text, rest, rfl⟩ := startsWithLine_iff.1 h
  rw [glue, String.empty_append]

theorem startsWithLine_glue {ps : List Emission} (h : startsWithLine ps) (qs : List Emission) :
    startsWithLine (glue ps qs) := by
  obtain ⟨text, rest, rfl⟩ := startsWithLine_iff.1 h
  obtain ⟨u, rest', hu⟩ := glue_head text rest qs
  exact startsWithLine_iff.2 ⟨_, _, hu⟩

theorem endsInLine_glue {ps qs : List Emission} (hp : endsInLine ps) (hq : startsWithLine qs) :
    endsInLine (glue ps qs) = endsInLine qs := by
  obtain ⟨init, a, rfl⟩ := endsInLine_iff.1 hp
  obtain ⟨b, rest, rfl⟩ := startsWithLine_iff.1 hq
  rw [glue_append]
  obtain rfl | ⟨rest, p, rfl⟩ := List.eq_nil_or_concat' rest
  · simp [endsInLine, isGroup]
  · rw [← List.cons_append, ← List.cons_append, ← List.append_assoc, endsInLine_concat, endsInLine_concat]

/-- Every fragment is a line or a group that starts with one, and every fragment but the last is a line or a
group that ends in one. -/
structure Spliceable (fragments : List Emission) : Prop where
  starts : ∀ f ∈ fragments, startsWithLine f.parts
  ends : ∀ f ∈ fragments.dropLast, endsInLine f.parts

theorem spliceable_nil : Spliceable [] := ⟨by simp, by simp⟩

theorem spliceable_cons {f : Emission} {fs : List Emission} : Spliceable (f :: fs) ↔
    startsWithLine f.parts ∧ (fs ≠ [] → endsInLine f.parts) ∧ Spliceable fs := by
  constructor
  · rintro ⟨hs, he⟩
    refine ⟨hs f (by simp), fun hne => he f ?_, fun g hg => hs g (by simp [hg]), fun g hg => he g ?_⟩
    · simp [List.dropLast_cons_of_ne_nil hne]
    · have hne : fs ≠ [] := by rintro rfl; simp at hg
      simp [List.dropLast_cons_of_ne_nil hne, hg]
  · rintro ⟨hs, he, hfs⟩
    refine ⟨List.forall_mem_cons.2 ⟨hs, hfs.starts⟩, ?_⟩
    by_cases hne : fs = []
    · simp [hne]
    · rw [List.dropLast_cons_of_ne_nil hne]
      exact List.forall_mem_cons.2 ⟨he hne, hfs.ends⟩

theorem Spliceable.startsWithLine_glued {fs : List Emission} (h : Spliceable fs) (hne : fs ≠ []) :
    startsWithLine (glued fs) := by
  cases fs with
  | nil => exact absurd rfl hne
  | cons f fs => exact startsWithLine_glue (spliceable_cons.1 h).1 _

/-- Fragments can be spliced in two parts, if the first part can be continued. -/
theorem spliceable_append {fs gs : List Emission} : Spliceable (fs ++ gs) ↔
    Spliceable fs ∧ Spliceable gs ∧ (fs ≠ [] → gs ≠ [] → endsInLine (glued fs)) := by
  induction fs with
  | nil => simp [spliceable_nil]
  | cons f fs ih =>
    rw [List.cons_append, spliceable_cons, spliceable_cons, ih, glued]
    by_cases hfs : fs = []
    · subst hfs
      simp only [List.nil_append, glued, glue_nil]
      tauto
    · by_cases hs : Spliceable fs
      · have hglue (hf : endsInLine f.parts) : endsInLine (glue f.parts (glued fs)) = endsInLine (glued fs) :=
          endsInLine_glue hf (hs.startsWithLine_glued hfs)
        simp only [ne_eq, List.append_eq_nil_iff, hfs, false_and, not_false_eq_true, forall_const, reduceCtorEq]
        constructor
        · rintro ⟨hstart, hend, -, hgs, hlast⟩
          exact ⟨⟨hstart, hend, hs⟩, hgs, fun hne => (hglue hend).trans (hlast hne)⟩
        · rintro ⟨⟨hstart, hend, -⟩, hgs, hlast⟩
          exact ⟨hstart, hend, hs, hgs, fun hne => (hglue hend).symm.trans (hlast hne)⟩
      · tauto

/-! ### Splicing -/

theorem block_eq_ok_iff {f : Emission} {text : String} {rest : List Emission} :
    block f = .ok (text, rest) ↔ f.parts = line text :: rest := by
  rcases f with text' | ⟨- | ⟨text' | cs, children⟩⟩ <;> simp [block, parts]

theorem block_eq_error {f : Emission} (h : ¬ startsWithLine f.parts) : block f = .error .notBlock := by
  rcases f with text' | ⟨- | ⟨text' | cs, children⟩⟩ <;> simp_all [block, parts, startsWithLine, isGroup]

theorem splice_cons {f : Emission} (hf : startsWithLine f.parts) (ps fs : List Emission) :
    splice ps.reverse (f :: fs) =
      if endsInLine ps then splice (glue ps f.parts).reverse fs else .error .endsInGroup := by
  obtain ⟨b, rest, hb⟩ := startsWithLine_iff.1 hf
  rw [splice, block_eq_ok_iff.2 hb, hb]
  obtain rfl | ⟨init, p, rfl⟩ := List.eq_nil_or_concat' ps
  · rfl
  · cases p with
    | line a => simp [glue_append, isGroup]
    | group cs => simp [isGroup]

/-- Splicing succeeds if the fragments can be spliced, and then it glues them. -/
theorem splice_eq_ok_iff {ps fs qs : List Emission} : splice ps.reverse fs = .ok qs ↔
    (fs ≠ [] → endsInLine ps) ∧ Spliceable fs ∧ qs = (glue ps (glued fs)).reverse := by
  induction fs generalizing ps with
  | nil =>
    rw [splice, glued, glue_nil, Except.ok.injEq]
    exact ⟨fun h => ⟨by simp, spliceable_nil, h.symm⟩, fun h => h.2.2.symm⟩
  | cons f fs ih =>
    rw [spliceable_cons, glued]
    by_cases hf : startsWithLine f.parts
    · rw [splice_cons hf]
      by_cases hp : endsInLine ps
      · rw [if_pos hp, ih, endsInLine_glue hp hf, glue_assoc]
        simp [hp, hf, and_assoc]
      · simp [hp]
    · simp [splice, block_eq_error hf, hf]

theorem parts_ofParts {ps : List Emission} (h : startsWithLine ps) : (ofParts ps).parts = ps := by
  obtain ⟨text, rest, rfl⟩ := startsWithLine_iff.1 h
  cases rest <;> rfl

theorem concat_eq_ok_iff {fs : List Emission} {e : Emission} :
    concat fs = .ok e ↔ Spliceable fs ∧ e = ofParts (glue [line ""] (glued fs)) := by
  have hsplice (qs : List Emission) : splice [line ""].reverse fs = .ok qs ↔ _ := splice_eq_ok_iff
  rw [concat, map_eq_ok_iff]
  constructor
  · rintro ⟨qs, hqs, rfl⟩
    obtain ⟨-, hfs, rfl⟩ := (hsplice qs).1 hqs
    exact ⟨hfs, by rw [List.reverse_reverse]⟩
  · rintro ⟨hfs, rfl⟩
    exact ⟨_, (hsplice _).2 ⟨fun _ => rfl, hfs, rfl⟩, by rw [List.reverse_reverse]⟩

theorem exists_concat_iff {fs : List Emission} : (∃ e, concat fs = .ok e) ↔ Spliceable fs := by
  simp [concat_eq_ok_iff]

theorem parts_of_concat {fs : List Emission} {e : Emission} (h : concat fs = .ok e) :
    e.parts = glue [line ""] (glued fs) := by
  obtain ⟨-, rfl⟩ := concat_eq_ok_iff.1 h
  exact parts_ofParts (startsWithLine_glue rfl _)

theorem startsWithLine_of_concat {fs : List Emission} {e : Emission} (h : concat fs = .ok e) :
    startsWithLine e.parts := by
  rw [parts_of_concat h]
  exact startsWithLine_glue rfl _

theorem parts_of_concat_ne_nil {fs : List Emission} {e : Emission} (h : concat fs = .ok e) (hne : fs ≠ []) :
    e.parts = glued fs := by
  have hs : Spliceable fs := (concat_eq_ok_iff.1 h).1
  rw [parts_of_concat h, glue_empty (hs.startsWithLine_glued hne)]

/-! ### Regrouping -/

section

variable {ys : List Emission} {y : Emission} (hys : ys ≠ []) (hy : concat ys = .ok y) (xs zs : List Emission)
include hys hy

theorem spliceable_regroup : Spliceable (xs ++ y :: zs) ↔ Spliceable (xs ++ ys ++ zs) := by
  have hs : Spliceable ys := (concat_eq_ok_iff.1 hy).1
  have htail : Spliceable (y :: zs) ↔ Spliceable (ys ++ zs) := by
    rw [spliceable_cons, spliceable_append, parts_of_concat_ne_nil hy hys]
    simp only [hs, hs.startsWithLine_glued hys, ne_eq, hys, true_and, not_false_eq_true, forall_const]
    exact and_comm
  have hne : ys ++ zs ≠ [] := by simp [hys]
  rw [List.append_assoc, spliceable_append, htail, @spliceable_append xs (ys ++ zs)]
  simp [hne]

theorem glued_regroup : glued (xs ++ y :: zs) = glued (xs ++ ys ++ zs) := by
  rw [List.append_assoc, glued_append, glued_append, glued_append, glued, parts_of_concat_ne_nil hy hys]

theorem concat_regroup {e : Emission} : concat (xs ++ y :: zs) = .ok e ↔ concat (xs ++ ys ++ zs) = .ok e := by
  rw [concat_eq_ok_iff, concat_eq_ok_iff, spliceable_regroup hys hy, glued_regroup hys hy]

end

theorem concat_concat {ys : List Emission} (hys : ys ≠ []) (xs zs : List Emission) (e : Emission) :
    (do let y ← concat ys; concat (xs ++ y :: zs)) = .ok e ↔ concat (xs ++ ys ++ zs) = .ok e := by
  rw [bind_eq_ok_iff]
  constructor
  · rintro ⟨y, hy, h⟩
    exact (concat_regroup hys hy xs zs).1 h
  · intro h
    have hall : Spliceable (xs ++ ys ++ zs) := exists_concat_iff.1 ⟨e, h⟩
    have hs : Spliceable ys := (spliceable_append.1 (spliceable_append.1 hall).1).2.1
    obtain ⟨y, hy⟩ := exists_concat_iff.2 hs
    exact ⟨y, hy, (concat_regroup hys hy xs zs).2 h⟩

/-- Splicing some neighbours beforehand, if there are any, fails exactly if splicing all at once fails, and
gives the same result. So splicing is associative. -/
theorem concat_regroups :
    (∀ xs ys zs : List Emission, ys ≠ [] → ∀ e,
      (do let y ← concat ys; concat (xs ++ y :: zs)) = .ok e ↔ concat (xs ++ ys ++ zs) = .ok e) ∧
    ∀ a b c e : Emission, (do let ab ← concat [a, b]; concat [ab, c]) = .ok e ↔
      (do let bc ← concat [b, c]; concat [a, bc]) = .ok e := by
  refine ⟨fun xs ys zs hys e => concat_concat hys xs zs e, fun a b c e => ?_⟩
  have hleft := concat_concat (List.cons_ne_nil a [b]) [] [c] e
  have hright := concat_concat (List.cons_ne_nil b [c]) [a] [] e
  exact hleft.trans hright.symm

def oneLine : Emission := group [line "f("]

def openEnd : Emission := group [line "async () => \x7b", group [line "a"]]

theorem concat_regroups_openEnd :
    [oneLine, openEnd] ≠ [] ∧
      (do let y ← concat [oneLine, openEnd]; concat ([line "b = ", oneLine] ++ y :: [])) =
        .ok (group [line "b = f(f(async () => \x7b", group [line "a"]]) ∧
      concat ([line "b = ", oneLine] ++ [oneLine, openEnd] ++ []) =
        .ok (group [line "b = f(f(async () => \x7b", group [line "a"]]) := by
  have hne : [oneLine, openEnd] ≠ [] := List.cons_ne_nil _ _
  have h : concat ([line "b = ", oneLine] ++ [oneLine, openEnd] ++ []) =
      .ok (group [line "b = f(f(async () => \x7b", group [line "a"]]) := by cbv
  exact ⟨hne, (concat_regroups.1 _ _ _ hne _).2 h, h⟩

-- what is spliced from nothing is an empty line, which no group goes on with
example : concat [group [line "a", group []]] = .ok (group [line "a", group []]) ∧
    (do let y ← concat []; concat [group [line "a", group []], y]) = .error .endsInGroup := by
  constructor <;> rfl

/-! ### What splicing keeps -/

/-- A view of parts that does not see where a line is cut. -/
structure Seamless {α : Type} (f : List Emission → α) : Prop where
  empty : ∀ ps, f (line "" :: ps) = f ps
  joined : ∀ a b ps, f (line (a ++ b) :: ps) = f (line a :: line b :: ps)
  front : ∀ p {ps qs}, f ps = f qs → f (p :: ps) = f (p :: qs)

namespace Seamless

variable {α : Type} {f : List Emission → α} (hf : Seamless f)
include hf

theorem append_left (init : List Emission) {ps qs : List Emission} (h : f ps = f qs) :
    f (init ++ ps) = f (init ++ qs) := by
  induction init with
  | nil => exact h
  | cons p init ih => exact hf.front p ih

theorem glue (ps qs : List Emission) : f (glue ps qs) = f (ps ++ qs) := by
  obtain h | ⟨init, a, b, rest, rfl, rfl, h⟩ := glue_cases ps qs
  · rw [h]
  · rw [h, List.append_assoc]
    exact hf.append_left init (hf.joined a b rest)

theorem glued (fs : List Emission) : f (glued fs) = f (fs.flatMap parts) := by
  induction fs with
  | nil => rfl
  | cons e fs ih =>
    rw [Emission.glued, hf.glue, List.flatMap_cons]
    exact hf.append_left e.parts ih

theorem concat {fs : List Emission} {e : Emission} (h : concat fs = .ok e) :
    f e.parts = f (fs.flatMap parts) := by
  rw [parts_of_concat h, hf.glue, List.singleton_append, hf.empty, hf.glued]

end Seamless

def lineText : Emission → String
  | line text => text
  | group _ => ""

/-- The texts between groups, before the first one and after the last one, each from all of its lines. -/
def stretches (ps : List Emission) : List String :=
  (ps.splitOnP isGroup).map fun run => String.join (run.map lineText)

theorem stretches_group (cs ps : List Emission) : stretches (group cs :: ps) = "" :: stretches ps := by
  simp [stretches, List.splitOnP_cons_eq_if_modifyHead, isGroup]

theorem stretches_line (text : String) (ps : List Emission) :
    stretches (line text :: ps) = (stretches ps).modifyHead (text ++ ·) := by
  obtain ⟨run, runs, h⟩ := List.exists_cons_of_ne_nil (List.splitOnP_ne_nil isGroup ps)
  simp [stretches, List.splitOnP_cons_eq_if_modifyHead, isGroup, h, lineText]

theorem seamless_stretches : Seamless stretches where
  empty ps := by
    rw [stretches_line]
    cases stretches ps <;> simp
  joined a b ps := by
    rw [stretches_line, stretches_line, stretches_line, List.modifyHead_modifyHead]
    congr 1
    funext text
    exact String.append_assoc ..
  front p ps qs h := by
    cases p with
    | line text => rw [stretches_line, stretches_line, h]
    | group cs => rw [stretches_group, stretches_group, h]

theorem seamless_groups : Seamless (List.filter isGroup) where
  empty ps := rfl
  joined a b ps := rfl
  front p ps qs h := by rw [List.filter_cons, List.filter_cons, h]

/-! ### Trees from outside -/

namespace Loose

mutual

def ofEmission : Emission → Loose
  | .line text => line text
  | .group children => group (listOfEmission children)

def listOfEmission : List Emission → List Loose
  | [] => []
  | child :: children => ofEmission child :: listOfEmission children

end

theorem listOfEmission_eq (es : List Emission) : listOfEmission es = es.map ofEmission := by
  induction es with
  | nil => rfl
  | cons e es ih => rw [listOfEmission, ih, List.map_cons]

theorem block_ofEmission (e : Emission) :
    block (ofEmission e) =
      ((Emission.block e).map fun b => (b.1, b.2.map ofEmission)).mapError .splice := by
  rcases e with text | ⟨- | ⟨text | cs, children⟩⟩
  · rfl
  · rfl
  · rw [ofEmission, listOfEmission, listOfEmission_eq]
    rfl
  · rfl

theorem splice_map (ps fs : List Emission) :
    splice (ps.map ofEmission) (fs.map ofEmission) =
      ((Emission.splice ps fs).map (List.map ofEmission)).mapError .splice := by
  induction fs generalizing ps with
  | nil => rfl
  | cons f fs ih =>
    rw [List.map_cons, splice, Emission.splice, block_ofEmission]
    rcases Emission.block f with e | ⟨text, rest⟩
    · rfl
    · rcases ps with - | ⟨last | cs, ps⟩
      · rfl
      · have h := ih (rest.reverse ++ .line (last ++ text) :: ps)
        rw [List.map_append, List.map_reverse] at h
        exact h
      · rfl

/-- Without values of another sort, trees from outside are spliced like any others. -/
theorem concat_map (fs : List Emission) :
    concat (fs.map ofEmission) = ((Emission.concat fs).map ofEmission).mapError .splice := by
  have hparts (ps : List Emission) : ofParts (ps.map ofEmission) = ofEmission (Emission.ofParts ps) := by
    rcases ps with - | ⟨p, - | ⟨q, ps⟩⟩
    · rfl
    · rfl
    · rw [Emission.ofParts, ofEmission, listOfEmission_eq]
      · rfl
      · simp
  have hsplice := splice_map [.line ""] fs
  rw [concat, Emission.concat]
  change splice [line ""] _ = _ at hsplice
  rw [hsplice]
  cases Emission.splice [.line ""] fs with
  | error e => rfl
  | ok ps => exact congrArg Except.ok ((congrArg ofParts List.map_reverse.symm).trans (hparts _))

theorem splice_foreign {fragments : List Loose} (h : ∃ f ∈ fragments, f.foreign?.isSome)
    (parts result : List Loose) : splice parts fragments ≠ .ok result := by
  induction fragments generalizing parts with
  | nil => simp at h
  | cons f fs ih =>
    rw [splice]
    rcases (List.exists_mem_cons_iff ..).1 h with hf | hfs
    · cases f with
      | foreign value => exact nofun
      | _ => cases hf
    · split
      · exact nofun
      · split
        · exact ih hfs _
        · exact nofun

/-- A value of another sort is never spliced. -/
theorem concat_foreign {fragments : List Loose} (h : ∃ f ∈ fragments, f.foreign?.isSome) (e : Loose) :
    concat fragments ≠ .ok e := by
  rw [concat]
  cases hsplice : splice [line ""] fragments with
  | error e => exact nofun
  | ok parts => exact absurd hsplice (splice_foreign h _ _)

end Loose

/-! ### Nothing is lost -/

/-- Fragments are spliced if and only if each starts with a line and each but the last ends in one, a value of
another sort being no fragment. Then the result starts with a line, has the groups of the fragments in their
order, and has the text of the fragments before, between and after them. -/
theorem concat_lossless :
    (∀ fragments : List Emission,
      ((∃ e, concat fragments = .ok e) ↔ Spliceable fragments) ∧
      ∀ e, concat fragments = .ok e →
        startsWithLine e.parts ∧
        e.parts.filter isGroup = fragments.flatMap (fun f => f.parts.filter isGroup) ∧
        stretches e.parts = stretches (fragments.flatMap parts)) ∧
    ∀ fragments : List Loose, (∃ f ∈ fragments, f.foreign?.isSome) → ∀ e, Loose.concat fragments ≠ .ok e := by
  refine ⟨fun fragments => ⟨exists_concat_iff, fun e h => ?_⟩, fun fragments => Loose.concat_foreign⟩
  refine ⟨startsWithLine_of_concat h, ?_, seamless_stretches.concat h⟩
  rw [seamless_groups.concat h, List.filter_flatMap]

def rows : Emission := group [line "g(", line "b", group [], group [line "c"], line "d"]

theorem concat_lossless_rows :
    (concat [line "a", rows, oneLine, openEnd] =
        .ok (group [line "ag(", line "b", group [], group [line "c"], line "df(async () => \x7b",
          group [line "a"]]) ∧
      [group [], group [line "c"], group [line "a"]] =
        [line "a", rows, oneLine, openEnd].flatMap (fun f => f.parts.filter isGroup) ∧
      ["ag(b", "", "df(async () => \x7b", ""] =
        stretches ([line "a", rows, oneLine, openEnd].flatMap parts)) ∧
    (∃ f ∈ [Loose.line "a", Loose.foreign .null], f.foreign?.isSome) ∧
      ∀ e, Loose.concat [Loose.line "a", Loose.foreign .null] ≠ .ok e := by
  have h : concat [line "a", rows, oneLine, openEnd] =
      .ok (group [line "ag(", line "b", group [], group [line "c"], line "df(async () => \x7b",
        group [line "a"]]) := by cbv
  have hforeign : ∃ f ∈ [Loose.line "a", Loose.foreign .null], f.foreign?.isSome := ⟨.foreign .null, by simp, rfl⟩
  obtain ⟨-, hgroups, hstretches⟩ := (concat_lossless.1 _).2 _ h
  exact ⟨⟨h, hgroups, hstretches⟩, hforeign, concat_lossless.2 _ hforeign⟩

end AwaitScript.Emission
