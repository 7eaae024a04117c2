import AwaitScript.Proofs.FlattenedLines
import AwaitScript.Proofs.JsonCharacters

/-! The JSON of emission trees. It is text in ASCII that follows the rules for strings and arrays, and the
tree can be had back from it, however deep it nests and whatever characters its lines hold. -/
namespace AwaitScript

namespace Json

/-! ### Texts made of strings and arrays -/

/-- What may stand between the quotes of a string: characters that need no escape, a backslash with one
of eight letters, and code units of four hexadecimal digits. -/
inductive IsStringBody : List Char → Prop
  | nil : IsStringBody []
  | plain {c : Char} {cs : List Char} (hc : 0x20 ≤ c.toNat ∧ c ≠ '"' ∧ c ≠ '\\') (h : IsStringBody cs) :
      IsStringBody (c :: cs)
  | escape {c : Char} {cs : List Char} (hc : c ∈ ['"', '\\', '/', 'b', 'f', 'n', 'r', 't'])
      (h : IsStringBody cs) : IsStringBody ('\\' :: c :: cs)
  | unit {a b c d : Char} {cs : List Char} (hx : ∀ x ∈ [a, b, c, d], (Hexadecimal.value? x).isSome)
      (h : IsStringBody cs) : IsStringBody ('\\' :: 'u' :: a :: b :: c :: d :: cs)

mutual

/-- A JSON text that has nothing but strings and arrays in it. -/
inductive IsNested : List Char → Prop
  | blanks {before text after : List Char} (hb : ∀ c ∈ before, isBlank c) (h : IsNested text)
      (ha : ∀ c ∈ after, isBlank c) : IsNested (before ++ text ++ after)
  | string {body : List Char} (h : IsStringBody body) : IsNested ('"' :: body ++ ['"'])
  | empty {inside : List Char} (hb : ∀ c ∈ inside, isBlank c) : IsNested ('[' :: inside ++ [']'])
  | array {items : List Char} (h : AreItems items) : IsNested ('[' :: items ++ [']'])

inductive AreItems : List Char → Prop
  | one {text : List Char} (h : IsNested text) : AreItems text
  | more {text items : List Char} (h : IsNested text) (hs : AreItems items) :
      AreItems (text ++ ',' :: items)

end

theorem isStringBody_unit {n : Nat} (hn : n < 0x10000) {cs : List Char} (h : IsStringBody cs) :
    IsStringBody ('\\' :: 'u' :: Hexadecimal.write 4 n ++ cs) := by
  obtain ⟨a, b, c, d, hw, hu⟩ := Literal.unit?_write hn
  rw [hw]
  exact .unit (Literal.value?_of_unit? hu) h

theorem isStringBody_writeChar {plain : Literal.Style} (hp : plain.Escaping) (c : Char) {cs : List Char}
    (h : IsStringBody cs) : IsStringBody (Literal.writeChar plain c ++ cs) := by
  unfold Literal.writeChar
  split
  case h_8 hq hb _ _ _ _ _ =>
    split
    · rename_i hplain
      exact .plain ⟨hp c hplain, hq, hb⟩ h
    · have hc := Literal.toNat_range c
      unfold Literal.units
      split
      · rename_i hc
        rw [List.flatMap_singleton]
        exact isStringBody_unit hc h
      · rw [List.flatMap_cons, List.append_assoc, List.flatMap_singleton]
        exact isStringBody_unit (by omega) (isStringBody_unit (by omega) h)
  all_goals exact .escape (by decide) h

theorem isNested_literal {plain : Literal.Style} (hp : plain.Escaping) (text : List Char) :
    IsNested (Literal.write plain text) := by
  refine .string ?_
  induction text with
  | nil => exact .nil
  | cons c text ih =>
    rw [List.flatMap_cons]
    exact isStringBody_writeChar hp c ih

/-! ### Room for reading -/

theorem Readable.mono {n m : Nat} {j : Json} (h : Readable n j) (hnm : n ≤ m) : Readable m j := by
  induction h generalizing m with
  | null => exact .null m
  | bool _ b => exact .bool m b
  | int _ i => exact .int m i
  | float _ negative rank => exact .float m negative rank
  | str _ s => exact .str m s
  | emptyArr => exact .emptyArr m
  | emptyObj => exact .emptyObj m
  | arr _ ih =>
    obtain ⟨m, rfl⟩ := Nat.exists_eq_succ_of_ne_zero (by omega : m ≠ 0)
    exact .arr fun j hj => ih j hj (by omega)
  | obj _ ih =>
    obtain ⟨m, rfl⟩ := Nat.exists_eq_succ_of_ne_zero (by omega : m ≠ 0)
    exact .obj fun j hj => ih j hj (by omega)

theorem length_write_item (layout : Layout) (d : Nat) {j : Json} {items : List Json} (h : j ∈ items) :
    (write layout (d + 1) j).length < (write layout d (.arr items)).length := by
  cases items with
  | nil => cases h
  | cons item items =>
    rw [write, writeItems_eq]
    rcases List.mem_cons.1 h with rfl | h
    · simp only [List.length_append, List.length_cons]
      omega
    · obtain ⟨before, after, rfl⟩ := List.append_of_mem h
      simp only [List.flatMap_append, List.flatMap_cons, List.length_append, List.length_cons]
      omega

end Json

namespace Emission

mutual

/-- The tree of a document: strings are lines and arrays are groups, and nothing else is a tree. -/
def ofJson? : Json → Option Emission
  | .str text => some (line text)
  | .arr items => (listOfJson? items).map group
  | _ => none

def listOfJson? : List Json → Option (List Emission)
  | [] => some []
  | item :: items => do
    let e ← ofJson? item
    let es ← listOfJson? items
    return e :: es

end

theorem listToJson_eq (es : List Emission) : listToJson es = es.map toJson := by
  induction es with
  | nil => rfl
  | cons e es ih => rw [listToJson, ih, List.map_cons]

theorem listOfJson?_toJson {es : List Emission} (h : ∀ e ∈ es, ofJson? e.toJson = some e) :
    listOfJson? (listToJson es) = some es := by
  induction es with
  | nil => rfl
  | cons e es ih =>
    rw [List.forall_mem_cons] at h
    rw [listToJson, listOfJson?, h.1, ih h.2]
    rfl

theorem ofJson?_toJson (e : Emission) : ofJson? e.toJson = some e := by
  induction e using Emission.induction with
  | line text => rfl
  | group children ih => rw [toJson, ofJson?, listOfJson?_toJson ih, Option.map_some]

theorem readable_toJson (layout : Json.Layout) (d : Nat) (e : Emission) :
    Json.Readable (Json.write layout d e.toJson).length e.toJson := by
  induction e using Emission.induction generalizing d with
  | line text => exact .str _ text
  | group children ih =>
    have hitems : List.Forall₂ (fun e j => toJson e = j) children (children.map toJson) := by
      simp [List.forall₂_same]
    rw [toJson, listToJson_eq]
    refine Node.readable_arr hitems ?_
    rintro e he j rfl
    have hlength := Json.length_write_item layout d (List.mem_map_of_mem (f := toJson) he)
    exact ⟨by omega, (ih e he (d + 1)).mono (by omega)⟩

theorem allFit_toJson [Json.Edition] (e : Emission) : Json.allFit e.toJson := by
  induction e using Emission.induction with
  | line text => rw [toJson, Json.allFit_str]
  | group children ih =>
    rw [toJson, listToJson_eq, Json.allFit_arr, List.all_map, List.all_eq_true]
    exact ih

section
variable {layout : Json.Layout}

theorem areItems_write {child : Emission} {children : List Emission} {d : Nat}
    (h : ∀ e ∈ child :: children, Json.IsNested (Json.write layout d e.toJson)) {after : List Char}
    (ha : ∀ c ∈ after, Json.isBlank c) :
    Json.AreItems (layout.newline d ++ Json.write layout d child.toJson ++
      (Json.writeItems layout d (listToJson children) ++ after)) := by
  have hblanks := Json.isBlank_newline layout d
  induction children generalizing child with
  | nil =>
    rw [listToJson, Json.writeItems, List.nil_append]
    exact .one (.blanks hblanks (h child List.mem_cons_self) ha)
  | cons next children ih =>
    have hrest := ih fun e (he : e ∈ next :: children) => h e (List.mem_cons_of_mem _ he)
    have hitem : Json.IsNested (layout.newline d ++ Json.write layout d child.toJson ++ []) :=
      .blanks hblanks (h child List.mem_cons_self) (by simp)
    rw [List.append_nil] at hitem
    rw [listToJson, Json.writeItems]
    simpa using Json.AreItems.more hitem hrest

theorem isNested_write (hp : layout.plain.Escaping) (d : Nat) (e : Emission) :
    Json.IsNested (Json.write layout d e.toJson) := by
  induction e using Emission.induction generalizing d with
  | line text =>
    rw [toJson, Json.write]
    exact Json.isNested_literal hp text.toList
  | group children ih =>
    cases children with
    | nil =>
      rw [toJson, listToJson, Json.write]
      exact .empty (by simp : ∀ c ∈ [], Json.isBlank c)
    | cons child children =>
      rw [toJson, listToJson, Json.write]
      have hitems := areItems_write (fun e he => ih e he (d + 1)) (Json.isBlank_newline layout d)
      simpa using Json.IsNested.array hitems

end

theorem escaping_ascii : Literal.ascii.Escaping := by
  intro c hc
  simp only [Literal.ascii, Bool.and_eq_true, decide_eq_true_eq] at hc
  exact hc.1

theorem dump_toList (e : Emission) :
    e.dump.toList = Json.write ⟨some 2, Literal.ascii⟩ 0 e.toJson := by
  rw [dump, Json.render, String.toList_ofList]

theorem readWithin_dump [Json.Edition] (e : Emission) :
    Json.readWithin e.dump.length e.dump = some e.toJson := by
  have hread : Json.readWithin _ (Json.render ⟨some 2, Literal.ascii⟩ e.toJson) = _ :=
    Json.readWithin_render escaping_ascii (readable_toJson ⟨some 2, Literal.ascii⟩ 0 e)
  rwa [if_pos e.allFit_toJson, ← dump_toList, String.length_toList] at hread

theorem toNat_lt_of_mem_dump (e : Emission) : ∀ c ∈ e.dump.toList, c.toNat < 128 := by
  rw [dump_toList]
  intro c hc
  rcases Json.uses_write 0 e.toJson c hc with hink | rfl | hplain
  · simp only [isInk, Bool.and_eq_true, decide_eq_true_eq] at hink
    omega
  · decide
  · simp only [Literal.ascii, Bool.and_eq_true, decide_eq_true_eq] at hplain
    omega

end Emission

namespace Program

/-- What is dumped of the tree of a program is text in ASCII, follows the rules of JSON for strings and
arrays, and is decoded to the tree. -/
theorem decode_dumpEmission [Json.Edition] {program : Program} {e : Emission} (h : program.lower = .ok e) :
    ∃ text, program.dumpEmission = .ok text ∧ (∀ c ∈ text.toList, c.toNat < 128) ∧
      Json.IsNested text.toList ∧ (Json.readWithin text.length text).bind Emission.ofJson? = some e := by
  refine ⟨e.dump, ?_, e.toNat_lt_of_mem_dump, ?_, ?_⟩
  · rw [dumpEmission, h]
    rfl
  · rw [Emission.dump_toList]
    exact Emission.isNested_write Emission.escaping_ascii 0 e
  · rw [Emission.readWithin_dump, Option.bind_some, Emission.ofJson?_toJson]

def strangeNames : Program :=
  [.identifier "\"\\\n\x7f", .function [[.identifier "é😀"]] [.identifier ""]]

def strangeTree : Emission :=
  .group [.group [.line "\"\\\n\x7f"],
    .group [.line "async (é😀) => \x7b", .group [.line ""], .line "\x7d"]]

theorem decode_dumpEmission_strangeNames :
    strangeNames.lower = .ok strangeTree ∧
      ∃ text, strangeNames.dumpEmission = .ok text ∧ (∀ c ∈ text.toList, c.toNat < 128) ∧
        Json.IsNested text.toList ∧
        (Json.readWithin text.length text).bind Emission.ofJson? = some strangeTree := by
  have hlower : strangeNames.lower = .ok strangeTree := by cbv
  exact ⟨hlower, decode_dumpEmission hlower⟩

end Program
end AwaitScript
