import AwaitScript.Json.Reader
import AwaitScript.Json.Writer
import Mathlib

/-! The text of a finite floating-point number reads back as that number. The digits that are written
denote the number by construction, so what has to be shown is that neither the place of the point nor
the exponent changes the value that is rounded. -/
namespace AwaitScript

theorem roundDiv_scale (n d : Nat) {c : Nat} (hc : 0 < c) :
    roundDiv (n * c) (d * c) = roundDiv n d := by
  have hlt : 2 * (n % d * c) < d * c ↔ 2 * (n % d) < d := by
    rw [← Nat.mul_assoc]
    exact Nat.mul_lt_mul_right hc
  have heq : 2 * (n % d * c) = d * c ↔ 2 * (n % d) = d := by
    rw [← Nat.mul_assoc]
    exact Nat.mul_left_inj hc.ne'
  unfold roundDiv
  simp only [Nat.mul_div_mul_right _ _ hc, Nat.mul_mod_mul_right, hlt, heq]

theorem roundDiv_mul (n : Nat) {d : Nat} (hd : 0 < d) : roundDiv (n * d) d = n := by
  unfold roundDiv
  simp [Nat.mul_div_cancel _ hd, hd]

namespace Binary64

/-! ### Rounding depends on the value alone -/

theorem rankOf_scale (n d : Nat) {c : Nat} (hc : 0 < c) : rankOf (n * c) (d * c) = rankOf n d := by
  unfold rankOf
  dsimp only
  rw [Nat.mul_div_mul_right _ _ hc, Nat.mul_right_comm d c, roundDiv_scale _ _ hc]

theorem ofRatio_scale (negative : Bool) (n d : Nat) {c : Nat} (hc : 0 < c) :
    ofRatio negative (n * c) (d * c) = ofRatio negative n d := by
  unfold ofRatio
  rw [Nat.mul_right_comm, rankOf_scale _ _ hc]

theorem toDigits_mul_ten {n : Nat} (hn : 0 < n) : Nat.toDigits 10 (n * 10) = Nat.toDigits 10 n ++ ['0'] := by
  have h := Nat.toDigits_append_toDigits (b := 10) (n := n) (d := 0) (by decide) hn (by decide)
  rw [Nat.add_zero, Nat.mul_comm] at h
  exact h.symm

theorem length_toDigits_mul_pow {n : Nat} (hn : 0 < n) (k : Nat) :
    (Nat.toDigits 10 (n * 10 ^ k)).length = (Nat.toDigits 10 n).length + k := by
  induction k with
  | zero => simp
  | succ k ih =>
    have hp : 0 < n * 10 ^ k := by positivity
    rw [Nat.pow_succ, ← Nat.mul_assoc, toDigits_mul_ten hp, List.length_append, ih]
    rfl

theorem ofRatio_shift (negative : Bool) (digits : Nat) (exponent : Int) (k : Nat) :
    (if exponent - k < 0 then ofRatio negative (digits * 10 ^ k) (10 ^ (exponent - k).natAbs)
      else ofRatio negative (digits * 10 ^ k * 10 ^ (exponent - k).natAbs) 1) =
    if exponent < 0 then ofRatio negative digits (10 ^ exponent.natAbs)
      else ofRatio negative (digits * 10 ^ exponent.natAbs) 1 := by
  have hpow (m : Nat) : 0 < 10 ^ m := by positivity
  by_cases he : exponent < 0
  · have hn : (exponent - k).natAbs = exponent.natAbs + k := by omega
    rw [if_pos (by omega), if_pos he, hn, Nat.pow_add, ofRatio_scale _ _ _ (hpow k)]
  · rw [if_neg he]
    by_cases hk : exponent - k < 0
    · have hn : k = exponent.natAbs + (exponent - k).natAbs := by omega
      have hs := ofRatio_scale negative (digits * 10 ^ exponent.natAbs) 1
        (hpow (exponent - k).natAbs)
      rw [if_pos hk, ← hs, Nat.mul_assoc, ← Nat.pow_add, ← hn, Nat.one_mul]
    · have hn : k + (exponent - k).natAbs = exponent.natAbs := by omega
      rw [if_neg hk, Nat.mul_assoc, ← Nat.pow_add, hn]

theorem ofDecimal_zero (negative : Bool) (exponent : Int) :
    ofDecimal negative 0 exponent = ofRank negative 0 := by
  unfold ofDecimal
  exact if_pos (Or.inl rfl)

theorem ofDecimal_scale (negative : Bool) (digits : Nat) (exponent : Int) (k : Nat) :
    ofDecimal negative (digits * 10 ^ k) (exponent - k) = ofDecimal negative digits exponent := by
  obtain rfl | hd := Nat.eq_zero_or_pos digits
  · rw [Nat.zero_mul, ofDecimal_zero, ofDecimal_zero]
  have hk : digits * 10 ^ k ≠ 0 := by positivity
  have hm : exponent - k + ((Nat.toDigits 10 (digits * 10 ^ k)).length : Int) =
      exponent + (Nat.toDigits 10 digits).length := by
    rw [length_toDigits_mul_pow hd]
    push_cast
    omega
  unfold ofDecimal
  simp only [hm, hk, hd.ne', false_or, Nat.pow_eq, ofRatio_shift]

theorem ofDecimal_negative {digits : Nat} {exponent : Int} {rank : Fin ranks}
    (h : ofDecimal false digits exponent = finite false rank) (negative : Bool) :
    ofDecimal negative digits exponent = finite negative rank := by
  have hr {n : Nat} (h : ofRank false n = finite false rank) : ofRank negative n = finite negative rank := by
    unfold ofRank at h ⊢
    split at h
    · next hn =>
      cases h
      rw [dif_pos hn]
    · cases h
  unfold ofDecimal at h ⊢
  dsimp only at h ⊢
  split_ifs at h ⊢ with h₁ h₂ h₃
  · exact hr h
  · exact hr h
  · exact hr h

/-! ### The digits that are chosen -/

theorem steps_pos {rank : Nat} (h : 0 < rank) : 0 < steps rank := by
  unfold steps
  split
  · exact h
  · simp only [Nat.pow_eq]
    positivity

theorem log2_mul_pow {m : Nat} (hm : fractions ≤ m) (hm' : m < 2 * fractions) (e : Nat) :
    Nat.log2 (m * 2 ^ e) = 52 + e := by
  have hp : 0 < 2 ^ e := by positivity
  have hf : fractions = 2 ^ 52 := rfl
  have h0 : m * 2 ^ e ≠ 0 := by
    have : 0 < m := Nat.lt_of_lt_of_le (by decide) hm
    positivity
  rw [Nat.log2_eq_iff h0]
  constructor
  · rw [Nat.pow_add, ← hf]
    exact Nat.mul_le_mul_right _ hm
  · calc m * 2 ^ e < 2 * fractions * 2 ^ e := (Nat.mul_lt_mul_right hp).2 hm'
      _ = 2 ^ (52 + e + 1) := by
        rw [hf]
        ring

theorem rankOf_steps (rank : Nat) {d : Nat} (hd : 0 < d) : rankOf (steps rank * d) d = rank := by
  have hf : 0 < fractions := by decide
  unfold rankOf steps
  dsimp only
  rw [Nat.mul_div_cancel _ hd]
  split
  · next hr =>
    have hs : Nat.log2 rank - 52 = 0 := by
      obtain rfl | hn := Nat.eq_zero_or_pos rank
      · decide
      · have := (Nat.log2_lt hn.ne').2 (show rank < 2 ^ 52 from hr)
        omega
    rw [hs]
    simpa using roundDiv_mul rank hd
  · next hr =>
    have he : 1 ≤ rank / fractions := (Nat.one_le_div_iff hf).2 (Nat.le_of_not_lt hr)
    have hm := Nat.mod_lt rank hf
    have hp (k : Nat) : 0 < d * 2 ^ k := by positivity
    simp only [Nat.pow_eq]
    have hlt : fractions + rank % fractions < 2 * fractions := by
      rw [Nat.two_mul]
      exact Nat.add_lt_add_left hm _
    rw [log2_mul_pow (Nat.le_add_right _ _) hlt, Nat.add_sub_cancel_left, Nat.mul_assoc,
      Nat.mul_comm (2 ^ _) d, roundDiv_mul _ (hp _)]
    obtain ⟨e, hq⟩ := Nat.exists_eq_add_of_le he
    rw [hq, Nat.add_sub_cancel_left]
    calc e * fractions + (fractions + rank % fractions)
        = fractions * (1 + e) + rank % fractions := by ring
      _ = rank := by rw [← hq, Nat.div_add_mod]

theorem steps_lt {rank : Nat} (h : rank < ranks) : steps rank < 2 ^ 2098 := by
  have h0 : 0 < fractions := by decide
  unfold steps
  split
  · next hr =>
    calc rank < fractions := hr
      _ < 2 ^ 2098 := by decide +kernel
  · have hm := Nat.mod_lt rank h0
    have he : rank / fractions - 1 ≤ 2045 := by
      have := (Nat.div_lt_iff_lt_mul h0).2 h
      omega
    calc (fractions + rank % fractions) * 2 ^ (rank / fractions - 1)
        ≤ (fractions + rank % fractions) * 2 ^ 2045 :=
          Nat.mul_le_mul_left _ (Nat.pow_le_pow_right (by decide) he)
      _ < (fractions + fractions) * 2 ^ 2045 :=
          (Nat.mul_lt_mul_right (by positivity)).2 (Nat.add_lt_add_left hm _)
      _ = 2 ^ 2098 := by decide +kernel

theorem ofDecimal_fraction {n k : Nat} (hn : 0 < n) (hk : 0 < k)
    (hmin : k ≤ (Nat.toDigits 10 n).length + 330) (hmax : (Nat.toDigits 10 n).length ≤ k + 310) :
    ofDecimal false n (-k) = ofRatio false n (10 ^ k) := by
  unfold ofDecimal
  dsimp only
  rw [if_neg (by omega), if_neg (by omega), if_pos (by omega), Int.natAbs_neg, Int.natAbs_natCast,
    Nat.pow_eq]

/-- A magnitude in full is neither too large nor too small to be read, and is read without rounding. -/
theorem ofDecimal_exact {rank : Nat} (h : rank < ranks) :
    ofDecimal false (Decimal.exact rank).digits (Decimal.exact rank).exponent = ofRank false rank := by
  have hlow : 10 ^ 743 ≤ Nat.pow 5 1074 := by decide +kernel
  have hhigh : 2 ^ 2098 * Nat.pow 5 1074 < 10 ^ 1384 := by decide +kernel
  have hone : Nat.pow 5 1074 * one = 10 ^ 1074 := by decide +kernel
  have hten : 0 < 10 ^ 1074 := by decide +kernel
  unfold Decimal.exact
  dsimp only
  generalize Nat.pow 5 1074 = p at hlow hhigh hone ⊢
  obtain rfl | hr := Nat.eq_zero_or_pos rank
  · have h0 : steps 0 = 0 := rfl
    rw [h0, Nat.zero_mul, ofDecimal_zero]
  have hs := steps_pos hr
  have hp : 0 < p := Nat.lt_of_lt_of_le (Nat.pow_pos (by decide)) hlow
  have hmin : ¬(Nat.toDigits 10 (steps rank * p)).length ≤ 743 := by
    rw [Nat.length_toDigits_le_iff (by decide) (by decide), Nat.not_lt]
    calc 10 ^ 743 ≤ p := hlow
      _ ≤ steps rank * p := Nat.le_mul_of_pos_left _ hs
  have hmax : (Nat.toDigits 10 (steps rank * p)).length ≤ 1384 := by
    rw [Nat.length_toDigits_le_iff (by decide) (by decide)]
    calc steps rank * p ≤ 2 ^ 2098 * p := Nat.mul_le_mul_right p (steps_lt h).le
      _ < 10 ^ 1384 := hhigh
  calc ofDecimal false (steps rank * p) (-(1074 : Nat))
      = ofRatio false (steps rank * p) (10 ^ 1074) :=
        ofDecimal_fraction (Nat.mul_pos hs hp) (by decide) (by omega) (by omega)
    _ = ofRank false rank := by rw [ofRatio, Nat.mul_assoc, hone, rankOf_steps rank hten]

/-- Whichever decimal is chosen, it reads as the rank. -/
theorem ofDecimal_shortest (rank : Fin ranks) :
    ofDecimal false (Decimal.shortest rank).digits (Decimal.shortest rank).exponent =
      finite false rank := by
  have hr : ofRank false rank = finite false rank := dif_pos rank.isLt
  unfold Decimal.shortest
  dsimp only
  cases hf : List.findSome? _ (List.range 17) with
  | none => exact (ofDecimal_exact rank.isLt).trans hr
  | some c =>
    obtain ⟨i, -, hi⟩ := List.exists_of_findSome?_eq_some hf
    have := List.find?_some hi
    rw [← hr]
    exact of_decide_eq_true this

end Binary64

namespace Json

/-! ### Digits -/

theorem number_append (u w : List Char) : number (u ++ w) = number u * 10 ^ w.length + number w := by
  have h := @Nat.ofDigitChars_eq_ofDigitChars_zero w (number u)
  rw [Nat.mul_comm] at h
  exact (Nat.ofDigitChars_append 0).trans h

theorem number_zeros (k : Nat) : number (List.replicate k '0') = 0 :=
  (@Nat.ofDigitChars_replicate_zero 10 0 k).trans (Nat.mul_zero _)

theorem number_append_zeros (w : List Char) (k : Nat) :
    number (w ++ List.replicate k '0') = number w * 10 ^ k := by
  rw [number_append, number_zeros, List.length_replicate, Nat.add_zero]

theorem number_zeros_append (k : Nat) (w : List Char) :
    number (List.replicate k '0' ++ w) = number w := by
  rw [number_append, number_zeros, Nat.zero_mul, Nat.zero_add]

theorem number_toDigits (n : Nat) : number (Nat.toDigits 10 n) = n :=
  Nat.ofDigitChars_toDigits (by decide) (by decide)

theorem isDigit_toDigits {n : Nat} : ∀ c ∈ Nat.toDigits 10 n, c.isDigit := fun _ hc =>
  Nat.isDigit_of_mem_toDigits (by decide) (by decide) hc

theorem head?_toDigits {n : Nat} (hn : 0 < n) : (Nat.toDigits 10 n).head? ≠ some '0' := by
  induction n using Nat.strongRecOn with
  | ind n ih =>
    by_cases hlt : n < 10
    · rw [Nat.toDigits_of_lt_base hlt]
      interval_cases n <;> decide
    · rw [Nat.toDigits_of_base_le (by decide) (by omega), List.head?_append_of_ne_nil _ Nat.toDigits_ne_nil]
      exact ih (n / 10) (by omega) (by omega)

def NoDigit (rest : List Char) : Prop := ∀ c ∈ rest.head?, ¬ c.isDigit

theorem takeWhile_stop {p : Char → Bool} {w rest : List Char} (hw : ∀ c ∈ w, p c)
    (hr : ∀ c ∈ rest.head?, ¬ p c) :
    (w ++ rest).takeWhile p = w ∧ (w ++ rest).dropWhile p = rest := by
  rw [List.takeWhile_append_of_pos hw, List.dropWhile_append_of_pos hw]
  cases rest with
  | nil => simp
  | cons c rest =>
    have : p c = false := by simpa using hr c rfl
    simp [this]

/-- Digits as the whole part of a number has them: a zero only by itself. -/
structure IsWhole (w : List Char) : Prop where
  ne_nil : w ≠ []
  digits : ∀ c ∈ w, c.isDigit
  head : w.head? = some '0' → w = ['0']

theorem isWhole_zero : IsWhole ['0'] :=
  ⟨by decide, by simp, fun _ => rfl⟩

theorem fits_iff [Edition] {negative : Bool} {n : Nat} :
    fits negative n ↔ n ≤ numberLimit ∧ (Edition.countsSign → negative → n ≠ numberLimit) := by
  unfold fits
  cases negative <;> cases Edition.countsSign <;> simp
  omega

theorem fits_of_lt [Edition] (negative : Bool) {n : Nat} (h : n < numberLimit) : fits negative n :=
  fits_iff.2 ⟨h.le, fun _ _ => h.ne⟩

theorem readWhole_append {w rest : List Char} (hw : IsWhole w) (hr : NoDigit rest) :
    readWhole (w ++ rest) = some (w, rest) := by
  obtain ⟨ht, hd⟩ := takeWhile_stop hw.digits hr
  obtain ⟨c, w, rfl⟩ := List.exists_cons_of_ne_nil hw.ne_nil
  by_cases hc : c = '0'
  · subst hc
    have h0 : w = [] := by simpa using hw.head rfl
    subst h0
    rfl
  · rw [List.cons_append] at ht hd ⊢
    unfold readWhole
    split
    · next h => exact absurd (List.cons.inj h).1 hc
    · rw [ht, hd]

theorem readFraction_append {w rest : List Char} (hw : ∀ c ∈ w, c.isDigit) (hne : w ≠ [])
    (hr : NoDigit rest) : readFraction ('.' :: w ++ rest) = some (w, rest) := by
  obtain ⟨ht, hd⟩ := takeWhile_stop hw hr
  obtain ⟨c, w, rfl⟩ := List.exists_cons_of_ne_nil hne
  simp only [readFraction, List.cons_append] at ht hd ⊢
  rw [ht, hd]

theorem readFraction_none {rest : List Char} (hr : rest.head? ≠ some '.') :
    readFraction rest = some ([], rest) := by
  unfold readFraction
  split
  · exact absurd rfl hr
  · rfl

theorem readSignedDigits_append (negative : Bool) (n : Nat) {rest : List Char} (hr : NoDigit rest) :
    readSignedDigits negative (Nat.toDigits 10 n ++ rest) =
      some (if negative then -(n : Int) else n, rest) := by
  obtain ⟨ht, hd⟩ := takeWhile_stop (isDigit_toDigits (n := n)) hr
  unfold readSignedDigits
  rw [ht, hd]
  split
  · next h => exact absurd h Nat.toDigits_ne_nil
  · rw [number_toDigits]

theorem readExponent_append (e : Int) {rest : List Char} (hr : NoDigit rest) :
    readExponent ('e' :: (if e < 0 then '-' else '+') :: Nat.toDigits 10 e.natAbs ++ rest) =
      some (some e, rest) := by
  by_cases he : e < 0
  · have hn : -(e.natAbs : Int) = e := by omega
    simp only [readExponent, he, if_true, List.cons_append, readSignedDigits_append _ _ hr, hn]
    rfl
  · have hn : (e.natAbs : Int) = e := by omega
    simp only [readExponent, he, if_false, List.cons_append, readSignedDigits_append _ _ hr, hn]
    rfl

theorem readExponent_none {rest : List Char} (he : rest.head? ≠ some 'e')
    (hE : rest.head? ≠ some 'E') : readExponent rest = some (none, rest) := by
  cases rest with
  | nil => rfl
  | cons c rest =>
    simp only [List.head?_cons, ne_eq, Option.some.injEq] at he hE
    simp [readExponent, he, hE]

/-- What follows does not continue a number. -/
structure Ends (rest : List Char) : Prop where
  noDigit : NoDigit rest
  noPoint : rest.head? ≠ some '.'
  noExponent : rest.head? ≠ some 'e' ∧ rest.head? ≠ some 'E'

section
variable [Edition] (negative : Bool)

theorem readUnsigned_parts {cs w f rest rest' rest'' : List Char} {e? : Option Int}
    (hw : readWhole cs = some (w, rest)) (hl : fits negative w.length)
    (hf : readFraction rest = some (f, rest')) (he : readExponent rest' = some (e?, rest'')) :
    readUnsigned negative cs =
      if f = [] ∧ e? = none then
        some (.int (if negative then -(number w : Int) else number w), rest'')
      else some (.float (.ofDecimal negative (number (w ++ f)) (e?.getD 0 - f.length)), rest'') := by
  unfold readUnsigned
  simp only [hw, hf, he, hl, Bool.not_true, Bool.false_eq_true, if_false, Option.bind_eq_bind,
    Option.bind_some, Option.pure_def]

theorem readUnsigned_whole {w rest : List Char} (hw : IsWhole w) (hr : Ends rest) :
    readUnsigned negative (w ++ rest) =
      if fits negative w.length then
        some (.int (if negative then -(number w : Int) else number w), rest)
      else none := by
  have hwhole := readWhole_append hw hr.noDigit
  split
  · next hl =>
    rw [readUnsigned_parts negative hwhole hl (readFraction_none hr.noPoint)
      (readExponent_none hr.noExponent.1 hr.noExponent.2)]
    exact if_pos ⟨rfl, rfl⟩
  · next hl => simp [readUnsigned, hwhole, hl]

theorem readUnsigned_point {w f rest : List Char} (hw : IsWhole w) (hl : w.length < numberLimit)
    (hf : ∀ c ∈ f, c.isDigit) (hne : f ≠ []) (hr : Ends rest) :
    readUnsigned negative (w ++ ('.' :: f ++ rest)) =
      some (.float (.ofDecimal negative (number (w ++ f)) (-f.length)), rest) := by
  have hp : NoDigit ('.' :: f ++ rest) := by
    intro c hc
    cases hc
    decide
  rw [readUnsigned_parts negative (readWhole_append hw hp) (fits_of_lt negative hl)
    (readFraction_append hf hne hr.noDigit) (readExponent_none hr.noExponent.1 hr.noExponent.2)]
  simp [hne]

theorem readUnsigned_exponent {w f rest : List Char} (e : Int) (hw : IsWhole w)
    (hl : w.length < numberLimit) (hf : ∀ c ∈ f, c.isDigit) (hr : Ends rest) :
    readUnsigned negative (w ++ ((if f = [] then [] else '.' :: f) ++
        ('e' :: (if e < 0 then '-' else '+') :: Nat.toDigits 10 e.natAbs ++ rest))) =
      some (.float (.ofDecimal negative (number (w ++ f)) (e - f.length)), rest) := by
  have hx : NoDigit ('e' :: (if e < 0 then '-' else '+') :: Nat.toDigits 10 e.natAbs ++ rest) := by
    intro c hc
    cases hc
    decide
  by_cases hne : f = []
  · subst hne
    rw [if_pos rfl, List.nil_append, readUnsigned_parts negative (readWhole_append hw hx)
      (fits_of_lt negative hl) (readFraction_none (by simp)) (readExponent_append e hr.noDigit)]
    simp
  · have hp : NoDigit ('.' :: f ++
        ('e' :: (if e < 0 then '-' else '+') :: Nat.toDigits 10 e.natAbs ++ rest)) := by
      intro c hc
      cases hc
      decide
    rw [if_neg hne, readUnsigned_parts negative (readWhole_append hw hp) (fits_of_lt negative hl)
      (readFraction_append hf hne hx) (readExponent_append e hr.noDigit)]
    simp

end
end Json

namespace Binary64.Decimal

/-! ### The text of the digits -/

theorem trimZeros_append (digits : List Char) :
    ∃ k, digits = trimZeros digits ++ List.replicate k '0' := by
  have h := @List.rdropWhile_append_rtakeWhile _ (fun c => decide (c = '0')) digits
  refine ⟨(digits.rtakeWhile fun c => c = '0').length, ?_⟩
  have hz : ∀ c ∈ digits.rtakeWhile fun c => c = '0', c = '0' := fun c hc => by
    simpa using List.mem_rtakeWhile_imp hc
  rw [← List.eq_replicate_of_mem hz]
  exact h.symm

theorem trimZeros_spec {x : Decimal} (hx : x.digits ≠ 0) :
    let w := trimZeros (Nat.toDigits 10 x.digits)
    (∀ c ∈ w, c.isDigit) ∧ w.head? ≠ some '0' ∧ w ≠ [] ∧
      ∀ negative, ofDecimal negative (Json.number w)
          ((Nat.toDigits 10 x.digits).length + x.exponent - w.length) =
        ofDecimal negative x.digits x.exponent := by
  obtain ⟨k, hk⟩ := trimZeros_append (Nat.toDigits 10 x.digits)
  intro w
  have hn : x.digits = Json.number w * 10 ^ k := by
    rw [← Json.number_append_zeros, ← hk, Json.number_toDigits]
  have hne : w ≠ [] := by
    intro h
    rw [h] at hn
    exact hx (hn.trans (Nat.zero_mul _))
  have hl : (Nat.toDigits 10 x.digits).length = w.length + k := by
    rw [hk, List.length_append, List.length_replicate]
  refine ⟨fun c hc => ?_, ?_, hne, fun negative => ?_⟩
  · apply Json.isDigit_toDigits c
    rw [hk]
    exact List.mem_append_left _ hc
  · rw [← List.head?_append_of_ne_nil w hne, ← hk]
    exact Json.head?_toDigits (Nat.pos_of_ne_zero hx)
  · rw [← ofDecimal_scale negative (Json.number w) _ k, ← hn]
    congr 1
    omega

section
variable [Json.Edition] (negative : Bool)

theorem readUnsigned_positional {w rest : List Char} {point : Int}
    (hw : ∀ c ∈ w, c.isDigit) (h0 : w.head? ≠ some '0') (hne : w ≠ []) (hp : point ≤ 16)
    (hr : Json.Ends rest) :
    Json.readUnsigned negative (positional w point ++ rest) =
      some (.float (ofDecimal negative (Json.number w) (point - w.length)), rest) := by
  have hz (k : Nat) : ∀ c ∈ List.replicate k '0', c.isDigit := by
    intro c hc
    rw [List.eq_of_mem_replicate hc]
    decide
  unfold positional
  split_ifs with hneg hlen
  · have hf : ∀ c ∈ List.replicate point.natAbs '0' ++ w, c.isDigit :=
      List.forall_mem_append.2 ⟨hz _, hw⟩
    have h := Json.readUnsigned_point negative Json.isWhole_zero (by decide) hf (by simp [hne]) hr
    have hv : Json.number (['0'] ++ (List.replicate point.natAbs '0' ++ w)) = Json.number w :=
      Json.number_zeros_append (point.natAbs + 1) w
    have he : -((List.replicate point.natAbs '0' ++ w).length : Int) = point - w.length := by
      rw [List.length_append, List.length_replicate]
      omega
    rw [hv, he] at h
    simpa using h
  · have hwhole : Json.IsWhole (w ++ List.replicate (point.natAbs - w.length) '0') := by
      refine ⟨by simp [hne], List.forall_mem_append.2 ⟨hw, hz _⟩, fun h => ?_⟩
      rw [List.head?_append_of_ne_nil _ hne] at h
      exact absurd h h0
    have hl : (w ++ List.replicate (point.natAbs - w.length) '0').length < Json.numberLimit := by
      rw [List.length_append, List.length_replicate, Json.numberLimit]
      omega
    have h := Json.readUnsigned_point negative hwhole hl (hz 1) (by simp) hr
    have hv : Json.number (w ++ List.replicate (point.natAbs - w.length) '0' ++ List.replicate 1 '0') =
        Json.number w * 10 ^ (point.natAbs - w.length + 1) := by
      rw [List.append_assoc, List.replicate_append_replicate, Json.number_append_zeros]
    have he : -((List.replicate 1 '0').length : Int) =
        point - w.length - ((point.natAbs - w.length + 1 : Nat) : Int) := by
      rw [List.length_replicate]
      omega
    rw [hv, he, ofDecimal_scale] at h
    simpa using h
  · have hwhole : Json.IsWhole (w.take point.natAbs) := by
      refine ⟨by simp [hne]; omega, fun c hc => hw c (List.mem_of_mem_take hc), fun h => ?_⟩
      rw [List.head?_take] at h
      split at h
      · cases h
      · exact absurd h h0
    have hl : (w.take point.natAbs).length < Json.numberLimit := by
      rw [List.length_take, Json.numberLimit]
      omega
    have h := Json.readUnsigned_point negative hwhole hl (fun c hc => hw c (List.mem_of_mem_drop hc))
      (by simpa using hlen) hr
    have he : -((w.drop point.natAbs).length : Int) = point - w.length := by
      rw [List.length_drop]
      omega
    rw [List.take_append_drop, he] at h
    simpa using h

theorem readUnsigned_scientific {w rest : List Char} (point : Int)
    (hw : ∀ c ∈ w, c.isDigit) (h0 : w.head? ≠ some '0') (hne : w ≠ []) (hr : Json.Ends rest) :
    Json.readUnsigned negative (scientific w (point - 1) ++ rest) =
      some (.float (ofDecimal negative (Json.number w) (point - w.length)), rest) := by
  have hwhole : Json.IsWhole (w.take 1) := by
    refine ⟨by simp [hne], fun c hc => hw c (List.mem_of_mem_take hc), fun h => ?_⟩
    rw [List.head?_take] at h
    exact absurd h h0
  have hl : (w.take 1).length < Json.numberLimit := by
    rw [List.length_take, Json.numberLimit]
    omega
  have hf : ∀ c ∈ w.drop 1, c.isDigit := fun c hc => hw c (List.mem_of_mem_drop hc)
  have h := Json.readUnsigned_exponent negative (point - 1) hwhole hl hf hr
  have hpos := List.length_pos_of_ne_nil hne
  have he : point - 1 - ((w.drop 1).length : Int) = point - w.length := by
    rw [List.length_drop]
    omega
  rw [List.take_append_drop, he] at h
  unfold scientific
  simpa using h

/-- The text of a decimal denotes it, whatever follows that cannot belong to a number. -/
theorem readUnsigned_write (x : Decimal) {rest : List Char} (hr : Json.Ends rest) :
    Json.readUnsigned negative (x.write ++ rest) =
      some (.float (ofDecimal negative x.digits x.exponent), rest) := by
  unfold write
  dsimp only
  split_ifs with hx hp
  · have h := Json.readUnsigned_point negative Json.isWhole_zero (f := ['0']) (by decide) (by simp)
      (by simp) hr
    rw [hx, ofDecimal_zero, ← ofDecimal_zero negative (-1)]
    exact h
  · obtain ⟨hd, h0, hne, hv⟩ := trimZeros_spec hx
    rw [readUnsigned_positional negative hd h0 hne hp.2 hr, hv]
  · obtain ⟨hd, h0, hne, hv⟩ := trimZeros_spec hx
    rw [readUnsigned_scientific negative _ hd h0 hne hr, hv]

/-- The text of a finite number, with its sign taken off, reads back as the number. -/
theorem readUnsigned_shortest (rank : Fin ranks) {rest : List Char} (hr : Json.Ends rest) :
    Json.readUnsigned negative ((shortest rank).write ++ rest) =
      some (.float (finite negative rank), rest) := by
  rw [readUnsigned_write negative _ hr, ofDecimal_negative (ofDecimal_shortest rank)]

end
end Binary64.Decimal
end AwaitScript
