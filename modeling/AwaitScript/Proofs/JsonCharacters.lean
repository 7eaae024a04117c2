import AwaitScript.Proofs.JsonText

/-! The characters of a JSON text: printable ASCII, line feeds, and what the style of its strings leaves
plain. -/
namespace AwaitScript

@[elab_as_elim]
theorem Json.induction {motive : Json → Prop}
    (null : motive .null) (bool : ∀ value, motive (.bool value)) (int : ∀ value, motive (.int value))
    (float : ∀ value, motive (.float value)) (str : ∀ value, motive (.str value))
    (arr : ∀ items, (∀ j ∈ items, motive j) → motive (.arr items))
    (obj : ∀ members, (∀ m ∈ members, motive m.2) → motive (.obj members)) (j : Json) : motive j := by
  induction h : sizeOf j using Nat.strongRecOn generalizing j with
  | ind size ih =>
    subst h
    cases j with
    | null => exact null
    | bool value => exact bool value
    | int value => exact int value
    | float value => exact float value
    | str value => exact str value
    | arr items =>
      refine arr items fun j hj => ih _ ?_ j rfl
      have := List.sizeOf_lt_of_mem hj
      simp only [Json.arr.sizeOf_spec]
      omega
    | obj members =>
      refine obj members fun m hm => ih _ ?_ m.2 rfl
      have := List.sizeOf_lt_of_mem hm
      obtain ⟨key, value⟩ := m
      simp only [Prod.mk.sizeOf_spec] at this
      simp only [Json.obj.sizeOf_spec]
      omega

def isInk (c : Char) : Bool := 0x20 ≤ c.toNat && c.toNat < 0x7f

/-! ### Numbers -/

theorem isInk_digitChar {n : Nat} (hn : n < 16) : isInk n.digitChar := by
  interval_cases n <;> decide

theorem isInk_toDigits {b : Nat} (hb : 1 < b ∧ b ≤ 16) (n : Nat) : (Nat.toDigits b n).all isInk := by
  induction n using Nat.strongRecOn with
  | ind n ih =>
    by_cases hn : n < b
    · rw [Nat.toDigits_of_lt_base hn]
      simpa using isInk_digitChar (hn.trans_le hb.2)
    · have hm : n % b < 16 := (Nat.mod_lt _ (by omega)).trans_le hb.2
      rw [Nat.toDigits_of_base_le hb.1 (by omega), List.all_append, Bool.and_eq_true]
      exact ⟨ih _ (Nat.div_lt_self (by omega) hb.1), by simpa using isInk_digitChar hm⟩

theorem isInk_decimal (n : Nat) : (Nat.toDigits 10 n).all isInk :=
  isInk_toDigits (by decide) n

theorem isInk_zeros (n : Nat) : (List.replicate n '0').all isInk := by
  simp [show isInk '0' by decide]

theorem isInk_hexadecimal (width n : Nat) : (Hexadecimal.write width n).all isInk := by
  rw [Hexadecimal.write, List.all_append, isInk_zeros, isInk_toDigits (by decide), Bool.and_self]

theorem isInk_writeInt (i : Int) : (Json.writeInt i).all isInk := by
  unfold Json.writeInt
  split
  · rw [List.all_cons, isInk_decimal, Bool.and_true]
    decide
  · exact isInk_decimal _

namespace Binary64
namespace Decimal
variable {digits : List Char}

theorem isInk_take (h : digits.all isInk) (n : Nat) : (digits.take n).all isInk := by
  rw [List.all_eq_true] at h ⊢
  exact fun c hc => h c (List.mem_of_mem_take hc)

theorem isInk_drop (h : digits.all isInk) (n : Nat) : (digits.drop n).all isInk := by
  rw [List.all_eq_true] at h ⊢
  exact fun c hc => h c (List.mem_of_mem_drop hc)

theorem isInk_positional (h : digits.all isInk) (point : Int) :
    (positional digits point).all isInk := by
  have hink : isInk '0' ∧ isInk '.' := by decide
  unfold positional
  split
  · simp [h, hink]
  split
  · simp [h, hink]
  · simp [isInk_take h, isInk_drop h, hink, -List.all_eq_true]

theorem isInk_scientific (h : digits.all isInk) (exponent : Int) :
    (scientific digits exponent).all isInk := by
  have hink : isInk '.' ∧ isInk 'e' := by decide
  have hrest : (if digits.drop 1 = [] then [] else '.' :: digits.drop 1).all isInk := by
    split
    · rfl
    · rw [List.all_cons, hink.1, isInk_drop h, Bool.and_self]
  have hsign : isInk (if exponent < 0 then '-' else '+') := by split <;> decide
  simp only [scientific, List.all_append, List.all_cons, isInk_take h, hrest, hink.2, hsign,
    isInk_decimal, Bool.and_self]

theorem isInk_write (x : Decimal) : x.write.all isInk := by
  have hdigits : (trimZeros (Nat.toDigits 10 x.digits)).all isInk := by
    obtain ⟨k, hk⟩ := trimZeros_append (Nat.toDigits 10 x.digits)
    have hall := isInk_decimal x.digits
    rw [hk, List.all_append, Bool.and_eq_true] at hall
    exact hall.1
  simp only [write]
  split
  · decide
  split
  · exact isInk_positional hdigits _
  · exact isInk_scientific hdigits _

end Decimal

theorem isInk_write? {x : Binary64} {text : List Char} (h : x.write? = some text) : text.all isInk := by
  cases x with
  | finite negative rank =>
    cases h
    have htext := Decimal.isInk_write (Decimal.shortest rank)
    split
    · rw [List.all_cons, htext, Bool.and_true]
      decide
    · exact htext
  | _ => cases h

end Binary64

/-! ### Documents -/

namespace Json
variable (layout : Layout)

def Layout.Uses (c : Char) : Prop := isInk c ∨ c = '\n' ∨ layout.plain c

variable {layout}

theorem uses_of_isInk {text : List Char} (h : text.all isInk) : ∀ c ∈ text, layout.Uses c :=
  fun c hc => .inl (List.all_eq_true.1 h c hc)

theorem uses_newline (d : Nat) : ∀ c ∈ layout.newline d, layout.Uses c := by
  unfold Layout.newline
  split
  · simp
  · rw [List.forall_mem_cons]
    exact ⟨.inr (.inl rfl), fun c hc => .inl (List.eq_of_mem_replicate hc ▸ by decide)⟩

theorem uses_writeChar (c : Char) : ∀ x ∈ Literal.writeChar layout.plain c, layout.Uses x := by
  unfold Literal.writeChar
  split
  case h_8 =>
    split
    · rename_i hplain
      rw [List.forall_mem_singleton]
      exact .inr (.inr hplain)
    · refine uses_of_isInk ?_
      simp only [List.all_flatMap, List.all_cons, isInk_hexadecimal]
      simp [show isInk '\\' by decide, show isInk 'u' by decide]
  all_goals exact uses_of_isInk (by decide)

theorem uses_literal (text : List Char) : ∀ c ∈ Literal.write layout.plain text, layout.Uses c := by
  have hquote : layout.Uses '"' := .inl (by decide)
  simp only [Literal.write, List.cons_append, List.forall_mem_cons, List.forall_mem_append,
    List.forall_mem_flatMap]
  exact ⟨hquote, fun c _ => uses_writeChar c, hquote, by simp⟩

theorem uses_colon : ∀ c ∈ layout.colon, layout.Uses c := by
  unfold Layout.colon
  split <;> exact uses_of_isInk (by decide)

theorem uses_write (d : Nat) (j : Json) : ∀ c ∈ write layout d j, layout.Uses c := by
  induction j using Json.induction generalizing d with
  | null =>
    rw [write]
    exact uses_of_isInk (by decide)
  | bool value => cases value <;> rw [write] <;> exact uses_of_isInk (by decide)
  | int value =>
    rw [write]
    exact uses_of_isInk (isInk_writeInt value)
  | float value =>
    rw [write]
    cases h : value.write? with
    | none => exact uses_of_isInk (by decide)
    | some text => exact uses_of_isInk (Binary64.isInk_write? h)
  | str value =>
    rw [write]
    exact uses_literal value.toList
  | arr items ih =>
    cases items with
    | nil =>
      rw [write]
      exact uses_of_isInk (by decide)
    | cons item items =>
      rw [write, writeItems_eq]
      rw [List.forall_mem_cons] at ih
      simp only [List.cons_append, List.forall_mem_append, List.forall_mem_cons,
        List.forall_mem_flatMap]
      refine ⟨.inl (by decide), ⟨⟨⟨uses_newline _, ih.1 _⟩, fun j hj => ?_⟩, uses_newline _⟩,
        .inl (by decide), by simp⟩
      exact ⟨.inl (by decide), uses_newline _, ih.2 j hj _⟩
  | obj members ih =>
    cases members with
    | nil =>
      rw [write]
      exact uses_of_isInk (by decide)
    | cons member members =>
      rw [List.forall_mem_cons] at ih
      rw [write, writeMembers_eq]
      simp only [writeMember, List.cons_append, List.forall_mem_append, List.forall_mem_cons,
        List.forall_mem_flatMap]
      refine ⟨.inl (by decide), ⟨⟨⟨⟨⟨uses_newline _, uses_literal _⟩, uses_colon⟩, ih.1 _⟩, fun m hm => ?_⟩,
        uses_newline _⟩, .inl (by decide), by simp⟩
      exact ⟨.inl (by decide), uses_newline _, ⟨uses_literal _, uses_colon⟩, ih.2 m hm _⟩

end Json
end AwaitScript
