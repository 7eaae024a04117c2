import AwaitScript.Proofs.ReferencePrinter

/-! The lines of emission trees. Flattening joins texts that are joined already, and it drops a group by
looking at its text; the same lines come from one traversal that never joins anything. -/
namespace AwaitScript.Emission

@[elab_as_elim]
theorem induction {motive : Emission → Prop} (line : ∀ text, motive (.line text))
    (group : ∀ children, (∀ e ∈ children, motive e) → motive (.group children)) (e : Emission) :
    motive e := by
  induction h : sizeOf e using Nat.strongRecOn generalizing e with
  | ind size ih =>
    subst h
    cases e with
    | line text => exact line text
    | group children =>
      refine group children fun e he => ih _ ?_ e rfl
      have hlt := List.sizeOf_lt_of_mem he
      rw [Emission.group.sizeOf_spec]
      omega

def isBlock : List Emission → Bool
  | line _ :: _ => true
  | _ => false

mutual

/-- The lines of a tree that stands inside of `depth` blocks. An empty line is not indented. A group has
none if there is no line in it, or nothing but one empty line. -/
def linesOf (unit indentation : String) (depth : Nat) : Emission → List String
  | line text => [if text = "" then "" else indentation ++ Printer.indent unit depth ++ text]
  | group children =>
    let inner := lines unit indentation (if isBlock children then depth + 1 else depth) children
    if inner = [] ∨ inner = [""] then [] else inner

def lines (unit indentation : String) (depth : Nat) : List Emission → List String
  | [] => []
  | child :: children => linesOf unit indentation depth child ++ lines unit indentation depth children

end

/-! ### Joining what is joined -/

def joined? : List String → Option String
  | [] => none
  | l :: ls => some ("\n".intercalate (l :: ls))

theorem joined?_of_ne_nil {ls : List String} (h : ls ≠ []) : joined? ls = some ("\n".intercalate ls) := by
  cases ls with
  | nil => exact absurd rfl h
  | cons l ls => rfl

theorem filterMap_joined?_eq_nil {blocks : List (List String)} :
    blocks.filterMap joined? = [] ↔ blocks.flatten = [] := by
  rw [List.filterMap_eq_nil_iff, List.flatten_eq_nil_iff]
  refine forall₂_congr fun ls _ => ?_
  cases ls <;> simp [joined?]

theorem intercalate_joined (blocks : List (List String)) :
    "\n".intercalate (blocks.filterMap joined?) = "\n".intercalate blocks.flatten := by
  induction blocks with
  | nil => rfl
  | cons ls blocks ih =>
    by_cases hls : ls = []
    · rw [hls, List.filterMap_cons_none rfl, ih, List.flatten_cons, List.nil_append]
    rw [List.filterMap_cons_some (joined?_of_ne_nil hls), List.flatten_cons]
    by_cases hrest : blocks.flatten = []
    · rw [filterMap_joined?_eq_nil.2 hrest, hrest, List.append_nil, String.intercalate_singleton]
    · have hne : blocks.filterMap joined? ≠ [] := fun h => hrest (filterMap_joined?_eq_nil.1 h)
      rw [String.intercalate_cons_of_ne_nil hne, String.intercalate_append_of_ne_nil hls hrest, ih]

theorem intercalate_eq_empty_iff {ls : List String} :
    "\n".intercalate ls = "" ↔ ls = [] ∨ ls = [""] := by
  cases ls with
  | nil => simp
  | cons l ls =>
    cases ls with
    | nil => simp
    | cons l' ls => simp [String.append_eq_empty_iff]

/-! ### Flattening -/

section

variable (unit indentation : String)

theorem lines_eq (depth : Nat) (children : List Emission) :
    lines unit indentation depth children = (children.map (linesOf unit indentation depth)).flatten := by
  induction children with
  | nil => rfl
  | cons child children ih => rw [lines, ih, List.map_cons, List.flatten_cons]

theorem pieces_eq (children : List Emission) :
    pieces unit indentation children = children.filterMap (piece? unit indentation) := by
  induction children with
  | nil => rfl
  | cons child children ih =>
    rw [pieces, ih]
    cases h : piece? unit indentation child with
    | none => rw [List.filterMap_cons_none h]
    | some text => rw [List.filterMap_cons_some h]

theorem nested_eq (depth : Nat) {children : List Emission} (h : children ≠ []) :
    nested unit (indentation ++ Printer.indent unit depth) children =
      indentation ++ Printer.indent unit (if isBlock children then depth + 1 else depth) := by
  cases children with
  | nil => exact absurd rfl h
  | cons child children =>
    cases child with
    | line text =>
      rw [isBlock, if_pos rfl, Printer.indent_succ, ← String.append_assoc]
      rfl
    | group cs => rfl

variable {unit indentation}

theorem intercalate_pieces {depth : Nat} {inner : String} {children : List Emission}
    (h : ∀ e ∈ children, piece? unit inner e = joined? (linesOf unit indentation depth e)) :
    "\n".intercalate (pieces unit inner children) =
      "\n".intercalate (lines unit indentation depth children) := by
  have hpieces : pieces unit inner children =
      (children.map (linesOf unit indentation depth)).filterMap joined? := by
    rw [pieces_eq, List.filterMap_map]
    exact List.filterMap_congr h
  rw [hpieces, intercalate_joined, lines_eq]

/-- The text of a tree is that of its lines. -/
theorem piece?_eq (e : Emission) (depth : Nat) :
    piece? unit (indentation ++ Printer.indent unit depth) e =
      joined? (linesOf unit indentation depth e) := by
  induction e using Emission.induction generalizing depth with
  | line text => simp [piece?, linesOf, joined?]
  | group children ih =>
    by_cases hc : children = []
    · subst hc
      rfl
    have htext := intercalate_pieces fun e he =>
      ih e he (if isBlock children then depth + 1 else depth)
    rw [piece?, linesOf, nested_eq unit indentation depth hc, htext]
    generalize lines unit indentation (if isBlock children then depth + 1 else depth) children = inner
    -- a text is empty exactly for those lines that the traversal drops
    by_cases hempty : inner = [] ∨ inner = [""]
    · simp only [if_pos hempty, if_pos (intercalate_eq_empty_iff.2 hempty)]
      rfl
    · have hne : "\n".intercalate inner ≠ "" := fun h => hempty (intercalate_eq_empty_iff.1 h)
      simp only [if_neg hempty, if_neg hne]
      rw [joined?_of_ne_nil fun h => hempty (.inl h)]

/-- Flattening some trees gives their lines, each one below the other. -/
theorem flatten_eq_joined_lines (unit indentation : String) (children : List Emission) :
    flatten unit indentation children = "\n".intercalate (lines unit indentation 0 children) := by
  have hzero : indentation ++ Printer.indent unit 0 = indentation := String.append_empty
  refine intercalate_pieces fun e _ => ?_
  rw [← piece?_eq e 0, hzero]

example : lines "  " "" 0 [line "a", group [line "", group []], group [line "", line "b"],
    group [group [line "c"], line "d"]] = ["a", "", "  b", "  c", "d"] := by decide

end

end AwaitScript.Emission
