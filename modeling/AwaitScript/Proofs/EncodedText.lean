import AwaitScript.Text.CodePoint
import AwaitScript.Text.Line
import AwaitScript.Text.Utf8
import Mathlib

/-! Text and its bytes. A text has an encoding exactly if no surrogate stands alone in it, every encoding
is decoded to its text, and a text without carriage returns survives the change of line breaks. -/
namespace AwaitScript

namespace Text

theorem mapM_char? {t : Text} {cs : List Char} :
    t.mapM CodePoint.char? = some cs ↔ t = cs.map .scalar := by
  induction t generalizing cs with
  | nil => cases cs <;> simp
  | cons p t ih =>
    cases p with
    | surrogate i => cases cs <;> simp [List.mapM_cons, CodePoint.char?]
    | scalar c =>
      cases cs <;> simp [List.mapM_cons, CodePoint.char?, Option.bind_eq_some_iff, ih, and_comm]

theorem toString?_eq_some {t : Text} {s : String} : t.toString? = some s ↔ t = ofString s := by
  unfold toString? ofString
  simp only [Option.map_eq_some_iff, mapM_char?]
  constructor
  · rintro ⟨cs, rfl, rfl⟩
    rw [String.toList_ofList]
  · rintro rfl
    exact ⟨s.toList, rfl, String.ofList_toList⟩

theorem eq_scalars {t : Text} (h : t.isScalar) : t = (t.filterMap CodePoint.char?).map .scalar := by
  induction t with
  | nil => rfl
  | cons p t ih =>
    obtain ⟨hp, ht⟩ : p.char?.isSome ∧ Text.isScalar t := by simpa [isScalar] using h
    cases p with
    | surrogate i => cases hp
    | scalar c => exact congrArg (CodePoint.scalar c :: ·) (ih ht)

/-- A text without lone surrogates is a string. -/
theorem exists_ofString {t : Text} (h : t.isScalar) : ∃ s, t = ofString s := by
  refine ⟨String.ofList (t.filterMap CodePoint.char?), ?_⟩
  rw [ofString, String.toList_ofList]
  exact eq_scalars h

@[simp] theorem isScalar_ofString (s : String) : (ofString s).isScalar := by
  simp [isScalar, ofString, CodePoint.char?]

theorem toString?_isSome (t : Text) : t.toString?.isSome ↔ t.isScalar := by
  constructor
  · intro h
    obtain ⟨s, hs⟩ := Option.isSome_iff_exists.1 h
    rw [toString?_eq_some.1 hs]
    exact isScalar_ofString s
  · intro h
    obtain ⟨s, rfl⟩ := exists_ofString h
    exact Option.isSome_iff_exists.2 ⟨s, toString?_eq_some.2 rfl⟩

theorem checkFrom_scalars (keeps : Fin 0x800 → Bool) (offset : Nat) (cs : List Char) :
    checkFrom keeps offset (cs.map .scalar) = .ok () := by
  induction cs generalizing offset with
  | nil => rfl
  | cons c cs ih => exact ih (offset + 1)

theorem isScalar_of_checkFrom {offset : Nat} {t : Text}
    (h : checkFrom (fun _ => false) offset t = .ok ()) : t.isScalar := by
  induction t generalizing offset with
  | nil => rfl
  | cons p t ih =>
    cases p with
    | surrogate index => cases h
    | scalar c => exact ih h

theorem strict_eq_ok_iff {t : Text} {s : String} : t.strict = .ok s ↔ t = ofString s := by
  unfold strict
  constructor
  · intro h
    cases hcheck : checkFrom (fun _ => false) 0 t with
    | error stray => simp [hcheck, Except.map] at h
    | ok _ =>
      rw [hcheck] at h
      cases h
      rw [ofString, String.toList_ofList]
      exact eq_scalars (isScalar_of_checkFrom hcheck)
  · rintro rfl
    rw [ofString, checkFrom_scalars]
    simp [Except.map, List.filterMap_map, Function.comp_def, CodePoint.char?]

@[simp] theorem strict_ofString (s : String) : (ofString s).strict = .ok s := strict_eq_ok_iff.2 rfl

@[simp] theorem check_ofString (keeps : Fin 0x800 → Bool) (s : String) :
    (ofString s).checkFrom keeps 0 = .ok () := checkFrom_scalars keeps 0 s.toList

theorem ofString_injective : Function.Injective ofString := by
  intro s t h
  have hstrict : (ofString t).strict = .ok s := strict_eq_ok_iff.2 h.symm
  rw [strict_ofString] at hstrict
  exact (Except.ok.inj hstrict).symm

theorem ofString_append (s t : String) : ofString (s ++ t) = ofString s ++ ofString t := by
  simp [ofString]

theorem isScalar_append (t u : Text) : (t ++ u).isScalar = (t.isScalar && u.isScalar) := List.all_append

end Text

namespace Utf8
variable {a b c d : UInt8} (offset : Nat) (rest : List UInt8)

theorem isContinuation_iff : isContinuation b ↔ 0x80 ≤ b.toNat ∧ b.toNat < 0xC0 := by
  simp [isContinuation, UInt8.le_iff_toNat_le, UInt8.lt_iff_toNat_lt]

theorem mayFollow_iff :
    mayFollow a b ↔ (0x80 ≤ b.toNat ∧ b.toNat < 0xC0) ∧ (a.toNat = 0xE0 → 0xA0 ≤ b.toNat) ∧
      (a.toNat = 0xED → b.toNat < 0xA0) ∧ (a.toNat = 0xF0 → 0x90 ≤ b.toNat) ∧
      (a.toNat = 0xF4 → b.toNat < 0x90) := by
  simp only [mayFollow, Bool.and_eq_true, isContinuation_iff, Bool.or_eq_true, decide_eq_true_eq, ne_eq,
    ← UInt8.toNat_inj, UInt8.le_iff_toNat_le, UInt8.lt_iff_toNat_lt, ← imp_iff_not_or, and_assoc]
  rfl

theorem decodeFrom_one (ha : a.toNat < 0x80) :
    decodeFrom offset (a :: rest) =
      (decodeFrom (offset + 1) rest).map (Char.ofNat a.toNat :: ·) := by
  have ha : a < 0x80 := UInt8.lt_iff_toNat_lt.2 ha
  simp only [decodeFrom.eq_def offset (a :: rest), ha, if_true]

theorem isStart (h : 0xC2 ≤ a.toNat ∧ a.toNat < 0xF5) :
    ¬ a < 0x80 ∧ (a < 0xC2 || 0xF5 ≤ a) = false := by
  simp only [UInt8.lt_iff_toNat_lt, UInt8.le_iff_toNat_le, Bool.or_eq_false_iff, decide_eq_false_iff_not]
  simp only [UInt8.reduceToNat]
  omega

theorem decodeFrom_two (ha : 0xC2 ≤ a.toNat ∧ a.toNat < 0xE0) (hb : mayFollow a b) :
    decodeFrom offset (a :: b :: rest) = (decodeFrom (offset + 2) rest).map (char2 a b :: ·) := by
  obtain ⟨hone, hstart⟩ := isStart ⟨ha.1, by omega⟩
  have htwo : a < 0xE0 := UInt8.lt_iff_toNat_lt.2 ha.2
  simp only [decodeFrom.eq_def offset (a :: b :: rest), hone, hstart, hb, htwo, if_true, if_false,
    Bool.not_true, Bool.false_eq_true]

theorem decodeFrom_three (ha : 0xE0 ≤ a.toNat ∧ a.toNat < 0xF0) (hb : mayFollow a b)
    (hc : isContinuation c) :
    decodeFrom offset (a :: b :: c :: rest) =
      (decodeFrom (offset + 3) rest).map (char3 a b c :: ·) := by
  obtain ⟨hone, hstart⟩ := isStart ⟨show 0xC2 ≤ a.toNat by omega, by omega⟩
  have htwo : ¬ a < 0xE0 := by simpa [UInt8.lt_iff_toNat_lt] using ha.1
  have hthree : a < 0xF0 := UInt8.lt_iff_toNat_lt.2 ha.2
  simp only [decodeFrom.eq_def offset (a :: b :: c :: rest), hone, hstart, hb, htwo, hc, hthree,
    if_true, if_false, Bool.not_true, Bool.false_eq_true]

theorem decodeFrom_four (ha : 0xF0 ≤ a.toNat ∧ a.toNat < 0xF5) (hb : mayFollow a b)
    (hc : isContinuation c) (hd : isContinuation d) :
    decodeFrom offset (a :: b :: c :: d :: rest) =
      (decodeFrom (offset + 4) rest).map (char4 a b c d :: ·) := by
  obtain ⟨hone, hstart⟩ := isStart ⟨show 0xC2 ≤ a.toNat by omega, ha.2⟩
  have htwo : ¬ a < 0xE0 := by
    simp only [UInt8.lt_iff_toNat_lt, UInt8.reduceToNat]
    omega
  have hthree : ¬ a < 0xF0 := by simpa [UInt8.lt_iff_toNat_lt] using ha.1
  simp only [decodeFrom.eq_def offset (a :: b :: c :: d :: rest), hone, hstart, hb, htwo, hc, hthree,
    hd, if_false, Bool.not_true, Bool.false_eq_true]

theorem toNat_byte {n : Nat} (h : n < 0x100) : (UInt8.ofNat n).toNat = n :=
  UInt8.toNat_ofNat_of_lt' h

/-- The bytes of one character are decoded to it. -/
theorem decodeFrom_utf8EncodeChar (c : Char) :
    ∃ n, decodeFrom offset (String.utf8EncodeChar c ++ rest) =
      (decodeFrom (offset + n) rest).map (c :: ·) := by
  have hvalid : c.toNat < 0xD800 ∨ 0xDFFF < c.toNat ∧ c.toNat < 0x110000 := c.valid
  simp only [String.utf8EncodeChar, show c.val.toNat = c.toNat from rfl]
  split
  · have ha := toNat_byte (show c.toNat < 0x100 by omega)
    refine ⟨1, ?_⟩
    rw [List.singleton_append, decodeFrom_one _ _ (by omega), ha, Char.ofNat_toNat]
  split
  · have ha := toNat_byte (show c.toNat / 64 % 0x20 + 0xC0 < 0x100 by omega)
    have hb := toNat_byte (show c.toNat % 0x40 + 0x80 < 0x100 by omega)
    refine ⟨2, ?_⟩
    rw [List.cons_append, List.singleton_append,
      decodeFrom_two _ _ (by omega) (mayFollow_iff.2 (by omega))]
    have hc : (c.toNat / 64 % 0x20 + 0xC0) % 0x20 * 0x40 + (c.toNat % 0x40 + 0x80) % 0x40 = c.toNat := by
      omega
    rw [char2, bits, ha, hb, hc, Char.ofNat_toNat]
  split
  · have ha := toNat_byte (show c.toNat / 4096 % 0x10 + 0xE0 < 0x100 by omega)
    have hb := toNat_byte (show c.toNat / 64 % 0x40 + 0x80 < 0x100 by omega)
    have hc := toNat_byte (show c.toNat % 0x40 + 0x80 < 0x100 by omega)
    refine ⟨3, ?_⟩
    rw [List.cons_append, List.cons_append, List.singleton_append,
      decodeFrom_three _ _ (by omega) (mayFollow_iff.2 (by omega)) (isContinuation_iff.2 (by omega))]
    have hn : ((c.toNat / 4096 % 0x10 + 0xE0) % 0x10 * 0x40 + (c.toNat / 64 % 0x40 + 0x80) % 0x40) * 0x40 +
        (c.toNat % 0x40 + 0x80) % 0x40 = c.toNat := by omega
    rw [char3, bits, bits, ha, hb, hc, hn, Char.ofNat_toNat]
  · have ha := toNat_byte (show c.toNat / 262144 % 0x08 + 0xF0 < 0x100 by omega)
    have hb := toNat_byte (show c.toNat / 4096 % 0x40 + 0x80 < 0x100 by omega)
    have hc := toNat_byte (show c.toNat / 64 % 0x40 + 0x80 < 0x100 by omega)
    have hd := toNat_byte (show c.toNat % 0x40 + 0x80 < 0x100 by omega)
    refine ⟨4, ?_⟩
    rw [List.cons_append, List.cons_append, List.cons_append, List.singleton_append,
      decodeFrom_four _ _ (by omega) (mayFollow_iff.2 (by omega)) (isContinuation_iff.2 (by omega))
        (isContinuation_iff.2 (by omega))]
    have hn : (((c.toNat / 262144 % 0x08 + 0xF0) % 0x08 * 0x40 + (c.toNat / 4096 % 0x40 + 0x80) % 0x40) *
        0x40 + (c.toNat / 64 % 0x40 + 0x80) % 0x40) * 0x40 + (c.toNat % 0x40 + 0x80) % 0x40 =
        c.toNat := by omega
    rw [char4, bits, bits, bits, ha, hb, hc, hd, hn, Char.ofNat_toNat]

theorem decodeFrom_encode (text : List Char) : decodeFrom offset (encode text) = .ok text := by
  induction text generalizing offset with
  | nil => simp [encode, decodeFrom.eq_def]
  | cons c text ih =>
    obtain ⟨n, hn⟩ := decodeFrom_utf8EncodeChar offset (encode text) c
    rw [encode, List.flatMap_cons, ← encode, hn, ih]
    rfl

theorem decode_encode (text : List Char) : decode (encode text) = .ok text :=
  decodeFrom_encode 0 text

end Utf8

theorem LineBreak.normalize_eq_self {text : List Char} (h : '\r' ∉ text) : normalize text = text := by
  induction text with
  | nil => rfl
  | cons c text ih =>
    obtain ⟨hc, htext⟩ : c ≠ '\r' ∧ '\r' ∉ text := by simpa [eq_comm] using h
    rw [normalize, if_neg hc, ih htext]
    rintro _ rfl
    exact absurd rfl hc

end AwaitScript
