import AwaitScript.Binary64.Basic

/-!
JSON documents. Whole numbers are kept apart from floating-point ones, and an object keeps its members in
the order of the text, repeated keys included; the last member with a key is the one that counts.
-/

namespace AwaitScript

inductive Json where
  | null
  | bool (value : Bool)
  | int (value : Int)
  | float (value : Binary64)
  | str (value : String)
  | arr (items : List Json)
  | obj (members : List (String × Json))
deriving Repr

namespace Json

/-- The value of the last member with the given key. -/
def lookup? (key : String) : List (String × Json) → Option Json
  | [] => none
  | (k, v) :: rest =>
    match lookup? key rest with
    | some w => some w
    | none => if k = key then some v else none

theorem sizeOf_lookup? {key : String} {members : List (String × Json)} {v : Json}
    (h : lookup? key members = some v) : sizeOf v < sizeOf members := by
  induction members with
  | nil => simp [lookup?] at h
  | cons m rest ih =>
    obtain ⟨k, w⟩ := m
    simp only [lookup?] at h
    split at h
    · next h' =>
      have := ih (h' ▸ h)
      simp only [List.cons.sizeOf_spec]
      omega
    · split at h
      · simp only [Option.some.injEq] at h
        subst h
        simp only [List.cons.sizeOf_spec, Prod.mk.sizeOf_spec]
        omega
      · simp at h

end Json
end AwaitScript
