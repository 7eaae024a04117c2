import AwaitScript.Proofs.EncodedText
import AwaitScript.Proofs.FloatText

/-! A written JSON document reads back as itself, in every layout and whichever characters are escaped, if
its nesting is within the reader's limit and all its integers are; with one that is not, it is refused. -/
namespace AwaitScript

/-! ### Strings -/

namespace Hexadecimal

theorem value?_digitChar {n : Nat} (hn : n < 16) : value? n.digitChar = some ⟨n, hn⟩ := by
  interval_cases n <;> rfl

theorem write_one {n : Nat} (hn : n < 16) : write 1 n = [n.digitChar] := by
  simp [write, Nat.toDigits_of_lt_base hn]

theorem write_succ (width n : Nat) :
    write (width + 2) n = write (width + 1) (n / 16) ++ [(n % 16).digitChar] := by
  unfold write
  by_cases hn : n < 16
  · have hq : n / 16 = 0 := Nat.div_eq_of_lt hn
    simp [Nat.toDigits_of_lt_base hn, hq, Nat.mod_eq_of_lt hn, List.replicate_succ']
  · simp [Nat.toDigits_of_base_le (b := 16) (n := n) (by decide) (by omega)]

end Hexadecimal

namespace Literal

theorem unit?_write {n : Nat} (hn : n < 0x10000) :
    ∃ a b c d, Hexadecimal.write 4 n = [a, b, c, d] ∧ unit? a b c d = some ⟨n, hn⟩ := by
  have hw : Hexadecimal.write 4 n = [(n / 16 / 16 / 16).digitChar, (n / 16 / 16 % 16).digitChar,
      (n / 16 % 16).digitChar, (n % 16).digitChar] := by
    rw [Hexadecimal.write_succ, Hexadecimal.write_succ, Hexadecimal.write_succ,
      Hexadecimal.write_one (by omega)]
    rfl
  have hm (m : Nat) : m % 16 < 16 := Nat.mod_lt _ (by decide)
  have ht : n / 16 / 16 / 16 < 16 := by omega
  refine ⟨_, _, _, _, hw, ?_⟩
  simp only [unit?, Hexadecimal.value?_digitChar ht, Hexadecimal.value?_digitChar (hm _),
    Option.bind_eq_bind, Option.bind_some, Option.pure_def, Option.some.injEq, Fin.mk.injEq]
  omega

theorem value?_of_unit? {a b c d : Char} {unit : Fin 0x10000} (h : unit? a b c d = some unit) :
    ∀ x ∈ [a, b, c, d], (Hexadecimal.value? x).isSome := by
  simp only [unit?, Option.bind_eq_bind, Option.bind_eq_some_iff] at h
  obtain ⟨_, ha, _, hb, _, hc, _, hd, -⟩ := h
  simp [ha, hb, hc, hd]

theorem readBody_digits {a b c d : Char} {unit : Fin 0x10000} (h : unit? a b c d = some unit)
    (rest : List Char) : readBody ('\\' :: 'u' :: a :: b :: c :: d :: rest) =
      (readBody rest).map fun (text, rest) => (text.consUnit unit, rest) := by
  simp [readBody, h]

theorem readBody_unit {n : Nat} (hn : n < 0x10000) (rest : List Char) :
    readBody ('\\' :: 'u' :: Hexadecimal.write 4 n ++ rest) =
      (readBody rest).map fun (text, rest) => (text.consUnit ⟨n, hn⟩, rest) := by
  obtain ⟨a, b, c, d, hw, hu⟩ := unit?_write hn
  rw [hw]
  exact readBody_digits hu rest

theorem toNat_range (c : Char) :
    c.toNat < 0xD800 ∨ 0xDFFF < c.toNat ∧ c.toNat < 0x110000 :=
  c.valid

theorem consUnit_scalar {c : Char} (h : c.toNat < 0x10000) (text : Text) :
    text.consUnit ⟨c.toNat, h⟩ = .scalar c :: text := by
  have hv : ¬(0xD800 ≤ c.toNat ∧ c.toNat < 0xE000) := by
    have := toNat_range c
    omega
  have hu : CodePoint.ofUnit ⟨c.toNat, h⟩ = .scalar c := by
    rw [CodePoint.ofUnit, dif_neg hv, Char.ofNat_toNat]
  unfold Text.consUnit
  rw [hu]

theorem ofUnit_surrogate {unit : Fin 0x10000} {index : Fin 0x800}
    (h : unit.val = 0xD800 + index.val) : CodePoint.ofUnit unit = .surrogate index := by
  rw [CodePoint.ofUnit, dif_pos (by omega), CodePoint.surrogate.injEq, Fin.ext_iff]
  exact (congrArg (· - 0xD800) h).trans (Nat.add_sub_cancel_left ..)

theorem consUnit_low {unit : Fin 0x10000} {low : Fin 0x800} (hu : unit.val = 0xD800 + low.val)
    (hl : 0x400 ≤ low.val) (text : Text) : text.consUnit unit = .surrogate low :: text := by
  have hn : ¬ low.val < 0x400 := Nat.not_lt.2 hl
  unfold Text.consUnit
  rw [ofUnit_surrogate hu]
  cases text with
  | nil => rfl
  | cons p text => cases p <;> simp [hn]

theorem consUnit_high {unit : Fin 0x10000} {high low : Fin 0x800} (hu : unit.val = 0xD800 + high.val)
    (hh : high.val < 0x400) (hl : 0x400 ≤ low.val) (text : Text) :
    Text.consUnit unit (.surrogate low :: text) = CodePoint.ofPair high low :: text := by
  unfold Text.consUnit
  simp [ofUnit_surrogate hu, hh, hl]

theorem consUnit_pair {c : Char} (h : 0x10000 ≤ c.toNat)
    (hi : 0xD800 + (c.toNat - 0x10000) / 0x400 < 0x10000)
    (lo : 0xDC00 + (c.toNat - 0x10000) % 0x400 < 0x10000) (text : Text) :
    Text.consUnit ⟨_, hi⟩ (Text.consUnit ⟨_, lo⟩ text) = .scalar c :: text := by
  have hc := toNat_range c
  have hr : (c.toNat - 0x10000) % 0x400 < 0x400 := Nat.mod_lt _ (by decide)
  have hq : (c.toNat - 0x10000) / 0x400 < 0x400 := by omega
  have hlow : 0x400 + (c.toNat - 0x10000) % 0x400 < 0x800 := by omega
  have hhigh : (c.toNat - 0x10000) / 0x400 < 0x800 := by omega
  have hl := @consUnit_low ⟨_, lo⟩ ⟨_, hlow⟩ (by dsimp only; omega) (Nat.le_add_right ..) text
  have hh := @consUnit_high ⟨_, hi⟩ ⟨_, hhigh⟩ ⟨_, hlow⟩ rfl hq (Nat.le_add_right ..) text
  rw [hl, hh]
  have hv : 0x10000 + (c.toNat - 0x10000) / 0x400 * 0x400 +
      (0x400 + (c.toNat - 0x10000) % 0x400 - 0x400) = c.toNat := by omega
  rw [CodePoint.ofPair, hv, Char.ofNat_toNat]

theorem readBody_units (c : Char) (rest : List Char) :
    readBody ((units c).flatMap (fun n => '\\' :: 'u' :: Hexadecimal.write 4 n) ++ rest) =
      (readBody rest).map fun (text, rest) => (.scalar c :: text, rest) := by
  unfold units
  split
  · next h =>
    rw [List.flatMap_singleton, readBody_unit h]
    simp only [consUnit_scalar]
  · next h =>
    have hc := toNat_range c
    have hi : 0xD800 + (c.toNat - 0x10000) / 0x400 < 0x10000 := by omega
    have lo : 0xDC00 + (c.toNat - 0x10000) % 0x400 < 0x10000 := by omega
    rw [List.flatMap_cons, List.append_assoc, readBody_unit hi, List.flatMap_singleton, readBody_unit lo]
    cases readBody rest with
    | error e => simp only [Except.map]
    | ok r => simp only [Except.map, consUnit_pair (Nat.le_of_not_lt h)]

def Style.Escaping (plain : Style) : Prop := ∀ c, plain c → 0x20 ≤ c.toNat

theorem readBody_plain {c : Char} (hq : c ≠ '"') (hb : c ≠ '\\') (hc : 0x20 ≤ c.toNat)
    (rest : List Char) :
    readBody (c :: rest) = (readBody rest).map fun (text, rest) => (.scalar c :: text, rest) := by
  rw [readBody.eq_def]
  split
  all_goals simp_all

theorem readBody_writeChar {plain : Style} (hp : plain.Escaping) (c : Char) (rest : List Char) :
    readBody (writeChar plain c ++ rest) =
      (readBody rest).map fun (text, rest) => (.scalar c :: text, rest) := by
  unfold writeChar
  split
  case h_8 hq hb _ _ _ _ _ =>
    split
    · next h => exact readBody_plain hq hb (hp c h) rest
    · exact readBody_units c rest
  all_goals rfl

theorem readBody_write {plain : Style} (hp : plain.Escaping) (s rest : List Char) :
    readBody (s.flatMap (writeChar plain) ++ '"' :: rest) = .ok (s.map .scalar, rest) := by
  induction s with
  | nil => rfl
  | cons c s ih =>
    rw [List.flatMap_cons, List.append_assoc, readBody_writeChar hp, ih]
    rfl

end Literal

namespace Json

theorem readString_write {plain : Literal.Style} (hp : plain.Escaping) (s : String) (rest : List Char) :
    readString (s.toList.flatMap (Literal.writeChar plain) ++ '"' :: rest) = some (s, rest) := by
  have hs : Text.toString? (s.toList.map .scalar) = some s := Text.toString?_eq_some.2 rfl
  rw [readString, Literal.readBody_write hp]
  dsimp only
  rw [hs, Option.map_some]

/-! ### Numbers -/

def digits (i : Int) : Nat := (Nat.toDigits 10 i.natAbs).length

theorem isWhole_toDigits (n : Nat) : IsWhole (Nat.toDigits 10 n) := by
  refine ⟨Nat.toDigits_ne_nil, isDigit_toDigits, fun h0 => ?_⟩
  obtain rfl | hn := Nat.eq_zero_or_pos n
  · rfl
  · exact absurd h0 (head?_toDigits hn)

theorem skipBlanks_cons {c : Char} (hc : isBlank c = false) (cs : List Char) :
    skipBlanks (c :: cs) = c :: cs := by
  simp [skipBlanks, hc]

section
variable [Edition] (n : Nat)

theorem readUnsigned_digit {negative : Bool} {cs : List Char} {r : Json × List Char}
    (h : readUnsigned negative cs = some r) : ∃ c cs', cs = c :: cs' ∧ c.isDigit := by
  cases cs with
  | nil => cases h
  | cons c cs' =>
    refine ⟨c, cs', rfl, ?_⟩
    by_contra hc
    have h0 : c ≠ '0' := by
      rintro rfl
      exact hc (by decide)
    have hw : readWhole (c :: cs') = none := by
      unfold readWhole
      split
      · next h => exact absurd (List.cons.inj h).1 h0
      · simp [hc]
    simp [readUnsigned, hw] at h

theorem readValue_digit {c : Char} (hc : c.isDigit) (cs : List Char) :
    readValue n (c :: cs) = readUnsigned false (c :: cs) := by
  have hne {x : Char} (hx : x.isDigit = false) : c ≠ x := by
    rintro rfl
    simp [hx] at hc
  have hb : isBlank c = false := by
    simp [isBlank, hne]
  rw [readValue.eq_def, skipBlanks_cons hb]
  split
  case h_11 => rfl
  all_goals next h => exact absurd (List.cons.inj h).1 (hne (by decide))

theorem readValue_minus {c : Char} (hc : c.isDigit) (cs : List Char) :
    readValue n ('-' :: c :: cs) = readUnsigned true (c :: cs) := by
  have hI : c ≠ 'I' := by
    rintro rfl
    exact absurd hc (by decide)
  rw [readValue.eq_def, skipBlanks_cons (by decide)]
  simp [hI]

theorem readValue_int (i : Int) {rest : List Char} (hr : Ends rest) :
    readValue n (writeInt i ++ rest) =
      if fits (i < 0) (digits i) then some (.int i, rest) else none := by
  obtain ⟨c, cs, hcs⟩ := List.exists_cons_of_ne_nil (@Nat.toDigits_ne_nil i.natAbs 10)
  have hc : c.isDigit := isDigit_toDigits c (by rw [hcs]; exact List.mem_cons_self)
  have hw := isWhole_toDigits i.natAbs
  unfold writeInt digits
  split
  · next hi =>
    have hu := readUnsigned_whole true hw hr
    rw [number_toDigits, if_pos rfl, Int.ofNat_natAbs_of_nonpos hi.le, neg_neg, hcs] at hu
    rw [hcs, decide_eq_true hi]
    exact (readValue_minus n hc (cs ++ rest)).trans hu
  · next hi =>
    have hu := readUnsigned_whole false hw hr
    rw [number_toDigits, if_neg Bool.false_ne_true, Int.natAbs_of_nonneg (Int.not_lt.1 hi), hcs] at hu
    rw [hcs, decide_eq_false hi]
    exact (readValue_digit n hc (cs ++ rest)).trans hu

theorem readValue_float (negative : Bool) (rank : Fin Binary64.ranks) (other : List Char)
    {rest : List Char} (hr : Ends rest) :
    readValue n ((Binary64.finite negative rank).write?.getD other ++ rest) =
      some (.float (.finite negative rank), rest) := by
  have hu := Binary64.Decimal.readUnsigned_shortest negative rank hr
  obtain ⟨c, cs, hcs, hc⟩ := readUnsigned_digit hu
  rw [hcs] at hu
  rw [Binary64.write?, Option.getD_some]
  cases negative with
  | false =>
    rw [if_neg Bool.false_ne_true, hcs, ← hu]
    exact readValue_digit n hc cs
  | true =>
    rw [if_pos rfl, List.cons_append, hcs, ← hu]
    exact readValue_minus n hc cs

end

theorem readWord_append (word : String) (rest : List Char) :
    readWord word (word.toList ++ rest) = some rest := by
  simp [readWord, ← String.length_toList]

/-! ### Containers -/

theorem ends_cons {c : Char} (hc : c ∈ [',', ']', '\x7d', '\n']) (rest : List Char) :
    Ends (c :: rest) := by
  have h : c.isDigit = false ∧ c ≠ '.' ∧ c ≠ 'e' ∧ c ≠ 'E' := by
    simp only [List.mem_cons, List.not_mem_nil, or_false] at hc
    obtain rfl | rfl | rfl | rfl := hc <;> decide
  refine ⟨fun x hx => ?_, by simp [h], by simp [h]⟩
  cases hx
  simp [h]

theorem ends_nil : Ends [] :=
  ⟨fun _ hc => by simp at hc, by simp, by simp⟩

theorem ends_newline (layout : Layout) (d : Nat) {c : Char} (hc : c ∈ [',', ']', '\x7d', '\n'])
    (rest : List Char) : Ends (layout.newline d ++ c :: rest) := by
  unfold Layout.newline
  cases layout.indent with
  | none => exact ends_cons hc rest
  | some n => exact ends_cons (by simp) _

theorem isBlank_newline (layout : Layout) (d : Nat) : ∀ c ∈ layout.newline d, isBlank c := by
  unfold Layout.newline
  intro c hc
  cases hi : layout.indent with
  | none => simp [hi] at hc
  | some n =>
    rw [hi] at hc
    obtain rfl | hc := List.mem_cons.1 hc
    · rfl
    · rw [List.eq_of_mem_replicate hc]
      rfl

theorem skipBlanks_newline (layout : Layout) (d : Nat) (cs : List Char) :
    skipBlanks (layout.newline d ++ cs) = skipBlanks cs :=
  List.dropWhile_append_of_pos (isBlank_newline layout d)

section
variable [Edition]

theorem readValue_newline (n : Nat) (layout : Layout) (d : Nat) (cs : List Char) :
    readValue n (layout.newline d ++ cs) = readValue n cs := by
  rw [readValue.eq_def, skipBlanks_newline, ← readValue.eq_def]

theorem readValue_arr (n : Nat) {cs : List Char} (hne : ∀ t, skipBlanks cs ≠ ']' :: t) :
    readValue (n + 1) ('[' :: cs) =
      (readSequence (readValue n) ']' cs).map fun (items, rest) => (.arr items, rest) := by
  rw [readValue.eq_def, skipBlanks_cons (by decide)]
  simp

theorem readValue_obj (n : Nat) {cs : List Char} (hne : ∀ t, skipBlanks cs ≠ '\x7d' :: t) :
    readValue (n + 1) ('\x7b' :: cs) =
      (readSequence (readMember (readValue n)) '\x7d' cs).map fun (members, rest) =>
        (.obj members, rest) := by
  rw [readValue.eq_def, skipBlanks_cons (by decide)]
  simp

end

theorem readSequence_append {α : Type} (item : List Char → Option (α × List Char)) (close : Char)
    (text : α → List Char) (ok : α → Bool) (lead : List Char) {trail rest : List Char} {a : α}
    {as : List α} (hclose : close ≠ ',') (hends : Ends trail)
    (htrail : skipBlanks trail = close :: rest)
    (hitem : ∀ b ∈ a :: as, ∀ rest, Ends rest →
      item (lead ++ text b ++ rest) = if ok b then some (b, rest) else none) :
    readSequence item close
        (lead ++ text a ++ (as.flatMap (fun b => ',' :: lead ++ text b) ++ trail)) =
      if (a :: as).all ok then some (a :: as, rest) else none := by
  induction as generalizing a with
  | nil =>
    have ha := hitem a (by simp) trail hends
    rw [readSequence.eq_def, List.flatMap_nil, List.nil_append, ha]
    cases hok : ok a with
    | false => simp [hok]
    | true => simp [hok, htrail]
  | cons b bs ih =>
    have hbs := ih (a := b) fun x hx => hitem x (List.mem_cons_of_mem a hx)
    have ha := hitem a (by simp) _ (ends_cons (c := ',') (by simp)
      (lead ++ text b ++ (bs.flatMap (fun b => ',' :: lead ++ text b) ++ trail)))
    have htext : (b :: bs).flatMap (fun b => ',' :: lead ++ text b) ++ trail =
        ',' :: (lead ++ text b ++ (bs.flatMap (fun b => ',' :: lead ++ text b) ++ trail)) := by
      simp
    rw [readSequence.eq_def, htext, ha, List.all_cons]
    cases ok a with
    | false => simp
    | true =>
      simp only [if_true]
      rw [skipBlanks_cons (by decide)]
      dsimp only
      rw [if_neg hclose.symm,
        dif_pos ⟨rfl, by simp only [List.length_append, List.length_cons]; omega⟩, hbs, Bool.true_and]
      split <;> rfl

/-! ### Documents -/

/-- A document with room for `n` containers that are not empty, and with a number wherever it has a
float. -/
inductive Readable : Nat → Json → Prop
  | null (n) : Readable n .null
  | bool (n b) : Readable n (.bool b)
  | int (n i) : Readable n (.int i)
  | float (n negative rank) : Readable n (.float (.finite negative rank))
  | str (n s) : Readable n (.str s)
  | emptyArr (n) : Readable n (.arr [])
  | arr {n item items} (h : ∀ j ∈ item :: items, Readable n j) : Readable (n + 1) (.arr (item :: items))
  | emptyObj (n) : Readable n (.obj [])
  | obj {n member members} (h : ∀ m ∈ member :: members, Readable n m.2) :
      Readable (n + 1) (.obj (member :: members))

section
variable [Edition]

mutual

/-- The integers of a document are within the limit on their digits. -/
def allFit : Json → Bool
  | .int i => fits (i < 0) (digits i)
  | .arr items => itemsFit items
  | .obj members => membersFit members
  | _ => true

def itemsFit : List Json → Bool
  | [] => true
  | item :: items => allFit item && itemsFit items

def membersFit : List (String × Json) → Bool
  | [] => true
  | (_, value) :: members => allFit value && membersFit members

end

@[simp] theorem allFit_str (s : String) : allFit (.str s) := by simp [allFit]

@[simp] theorem allFit_arr (items : List Json) : allFit (.arr items) = items.all allFit := by
  rw [allFit]
  induction items with
  | nil => rw [itemsFit, List.all_nil]
  | cons j items ih => rw [itemsFit, ih, List.all_cons]

@[simp] theorem allFit_obj (members : List (String × Json)) :
    allFit (.obj members) = members.all fun m => allFit m.2 := by
  rw [allFit]
  induction members with
  | nil => rw [membersFit, List.all_nil]
  | cons m members ih => rw [membersFit, ih, List.all_cons]

end

def writeMember (layout : Layout) (depth : Nat) (member : String × Json) : List Char :=
  Literal.write layout.plain member.1.toList ++ layout.colon ++ write layout depth member.2

theorem writeItems_eq (layout : Layout) (d : Nat) (items : List Json) :
    writeItems layout d items = items.flatMap fun j => ',' :: layout.newline d ++ write layout d j := by
  induction items with
  | nil => rw [writeItems, List.flatMap_nil]
  | cons j items ih => rw [writeItems, List.flatMap_cons, ih]

theorem writeMembers_eq (layout : Layout) (d : Nat) (members : List (String × Json)) :
    writeMembers layout d members =
      members.flatMap fun m => ',' :: layout.newline d ++ writeMember layout d m := by
  induction members with
  | nil => rw [writeMembers, List.flatMap_nil]
  | cons m members ih =>
    obtain ⟨key, value⟩ := m
    rw [writeMembers, List.flatMap_cons, ih]
    simp [writeMember]

theorem write_head (layout : Layout) (d : Nat) {n : Nat} {j : Json} (h : Readable n j) :
    ∃ c cs, write layout d j = c :: cs ∧ isBlank c = false ∧ c ≠ ']' := by
  have hdigit {c : Char} (hc : c.isDigit) : isBlank c = false ∧ c ≠ ']' := by
    have hne {x : Char} (hx : x.isDigit = false) : c ≠ x := by
      rintro rfl
      simp [hx] at hc
    simp [isBlank, hne]
  have hminus : isBlank '-' = false ∧ '-' ≠ ']' := by decide
  cases h with
  | null => exact ⟨_, _, by rw [write]; rfl, by decide⟩
  | bool _ b => cases b <;> exact ⟨_, _, by rw [write]; rfl, by decide⟩
  | int _ i =>
    obtain ⟨c, cs, hcs⟩ := List.exists_cons_of_ne_nil (@Nat.toDigits_ne_nil i.natAbs 10)
    rw [write, writeInt]
    split
    · exact ⟨_, _, rfl, hminus⟩
    · exact ⟨c, cs, hcs, hdigit (isDigit_toDigits c (by rw [hcs]; exact List.mem_cons_self))⟩
  | float _ negative rank =>
    obtain ⟨c, cs, hcs, hc⟩ :=
      readUnsigned_digit (Binary64.Decimal.readUnsigned_shortest negative rank ends_nil)
    rw [List.append_nil] at hcs
    rw [write, Binary64.write?, Option.getD_some]
    cases negative with
    | false => exact ⟨c, cs, by simpa using hcs, hdigit hc⟩
    | true => exact ⟨_, _, rfl, hminus⟩
  | str => exact ⟨_, _, by rw [write]; rfl, by decide⟩
  | emptyArr => exact ⟨_, _, by rw [write], by decide⟩
  | arr => exact ⟨_, _, by rw [write]; rfl, by decide⟩
  | emptyObj => exact ⟨_, _, by rw [write], by decide⟩
  | @obj _ m =>
    obtain ⟨key, value⟩ := m
    exact ⟨_, _, by rw [write]; rfl, by decide⟩

section
variable [Edition] {layout : Layout} (hp : layout.plain.Escaping)
include hp

theorem readMember_write {n d : Nat} {m : String × Json} {rest : List Char}
    (h : readValue n (write layout d m.2 ++ rest) = if allFit m.2 then some (m.2, rest) else none) :
    readMember (readValue n) (layout.newline d ++ writeMember layout d m ++ rest) =
      if allFit m.2 then some (m, rest) else none := by
  have hc : ∃ blanks, layout.colon = ':' :: blanks ∧ ∀ c ∈ blanks, isBlank c := by
    unfold Layout.colon
    split
    · exact ⟨[' '], rfl, by simp [isBlank]⟩
    · exact ⟨[], rfl, by simp⟩
  obtain ⟨blanks, hc, hb⟩ := hc
  have hv : readValue n (blanks ++ (write layout d m.2 ++ rest)) =
      if allFit m.2 then some (m.2, rest) else none := by
    rw [readValue.eq_def, skipBlanks, List.dropWhile_append_of_pos hb, ← skipBlanks, ← readValue.eq_def, h]
  have ht : writeMember layout d m ++ rest =
      '"' :: (m.1.toList.flatMap (Literal.writeChar layout.plain) ++
        '"' :: ':' :: (blanks ++ (write layout d m.2 ++ rest))) := by
    simp [writeMember, Literal.write, hc]
  rw [List.append_assoc, ht, readMember, skipBlanks_newline, skipBlanks_cons (by decide)]
  simp only [readString_write hp, Option.bind_eq_bind, Option.bind_some]
  rw [skipBlanks_cons (by decide)]
  simp only [hv]
  split <;> rfl

/-- A document with room for its containers reads back as itself, whatever follows that cannot belong to
a number, unless one of its integers is too long. -/
theorem readValue_write {n : Nat} {j : Json} (h : Readable n j) (d : Nat) {rest : List Char}
    (hr : Ends rest) :
    readValue n (write layout d j ++ rest) = if allFit j then some (j, rest) else none := by
  induction h generalizing d rest with
  | null n =>
    have hw := readWord_append "ull" rest
    rw [write, readValue.eq_def]
    simp_all [skipBlanks_cons, isBlank, allFit]
  | bool n b =>
    have ht := readWord_append "rue" rest
    have hf := readWord_append "alse" rest
    cases b <;> rw [write, readValue.eq_def] <;> simp_all [skipBlanks_cons, isBlank, allFit]
  | int n i =>
    rw [write, allFit]
    exact readValue_int n i hr
  | float n negative rank =>
    rw [write, readValue_float n negative rank _ hr]
    simp [allFit]
  | str n s =>
    simp [write, Literal.write, readValue.eq_def n, skipBlanks_cons, isBlank, readString_write hp, allFit]
  | emptyArr n => simp [write, readValue.eq_def n, skipBlanks_cons, isBlank]
  | @arr n item items h ih =>
    have hitem : ∀ j ∈ item :: items, ∀ rest, Ends rest →
        readValue n (layout.newline (d + 1) ++ write layout (d + 1) j ++ rest) =
          if allFit j then some (j, rest) else none := by
      intro j hj rest hr
      rw [List.append_assoc, readValue_newline, ih j hj (d + 1) hr]
    have hs := readSequence_append (readValue n) ']' (write layout (d + 1)) allFit
      (layout.newline (d + 1)) (by decide) (ends_newline layout d (c := ']') (by simp) rest)
      (by rw [skipBlanks_newline, skipBlanks_cons (by decide)]) hitem
    obtain ⟨c, cs, hcs, hb, hc⟩ := write_head layout (d + 1) (h item List.mem_cons_self)
    have hne (tail t : List Char) :
        skipBlanks (layout.newline (d + 1) ++ write layout (d + 1) item ++ tail) ≠ ']' :: t := by
      rw [hcs, List.append_assoc, skipBlanks_newline, List.cons_append, skipBlanks_cons hb]
      exact fun he => hc (List.cons.inj he).1
    have harr := readValue_arr n (hne (items.flatMap (fun j => ',' :: layout.newline (d + 1) ++
      write layout (d + 1) j) ++ (layout.newline d ++ ']' :: rest)))
    rw [hs] at harr
    rw [write, writeItems_eq, allFit_arr]
    simp only [List.cons_append, List.append_assoc, List.nil_append] at harr ⊢
    rw [harr]
    split <;> rfl
  | emptyObj n => simp [write, readValue.eq_def n, skipBlanks_cons, isBlank]
  | @obj n member members h ih =>
    have hs := readSequence_append (readMember (readValue n)) '\x7d' (writeMember layout (d + 1))
      (fun m => allFit m.2) (layout.newline (d + 1)) (by decide)
      (ends_newline layout d (c := '\x7d') (by simp) rest)
      (by rw [skipBlanks_newline, skipBlanks_cons (by decide)])
      (fun m hm rest hr => readMember_write hp (ih m hm (d + 1) hr))
    have hne (tail t : List Char) :
        skipBlanks (layout.newline (d + 1) ++ writeMember layout (d + 1) member ++ tail) ≠ '\x7d' :: t := by
      rw [List.append_assoc, skipBlanks_newline, writeMember, Literal.write, List.append_assoc,
        List.append_assoc, List.cons_append, List.cons_append, skipBlanks_cons (by decide)]
      simp
    have hobj := readValue_obj n (hne (members.flatMap (fun m => ',' :: layout.newline (d + 1) ++
      writeMember layout (d + 1) m) ++ (layout.newline d ++ '\x7d' :: rest)))
    rw [hs] at hobj
    obtain ⟨key, value⟩ := member
    rw [write, writeMembers_eq, allFit_obj]
    simp only [writeMember, List.cons_append, List.append_assoc, List.nil_append] at hobj ⊢
    rw [hobj]
    split <;> rfl

/-- A rendered document is read back if its integers are within the limit, and refused otherwise. -/
theorem readWithin_render {n : Nat} {j : Json} (h : Readable n j) :
    readWithin n (render layout j) = if allFit j then some j else none := by
  have hr := readValue_write hp h 0 ends_nil
  rw [List.append_nil] at hr
  rw [readWithin, render, String.toList_ofList, hr]
  cases allFit j <;> rfl

end
end Json
end AwaitScript
