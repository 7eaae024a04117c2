import AwaitScript.Proofs.DumpedSource
import AwaitScript.Proofs.JsonCharacters

/-!
A JSON document that is written to a file and read again. It has a line feed after it then, which does not
count, and no carriage return that the change of line breaks could touch.
-/

namespace AwaitScript

/-! ### JSON with a line feed after it -/

namespace Json
variable {layout : Layout} (hp : layout.plain.Escaping)
include hp

theorem return_not_mem_render (j : Json) : '\r' ∉ (render layout j).toList := by
  rw [render, String.toList_ofList]
  intro hc
  rcases uses_write 0 j _ hc with h | h | h
  · revert h
    decide
  · revert h
    decide
  · exact absurd (hp _ h) (by decide)

theorem readWithin_render_newline [Edition] {n : Nat} {j : Json} (h : Readable n j) :
    readWithin n (render layout j ++ "\n") = readWithin n (render layout j) := by
  have hr := readValue_write hp h 0 (ends_cons (c := '\n') (by decide) [])
  rw [readWithin_render hp h, readWithin, render, String.toList_append, String.toList_ofList,
    show "\n".toList = ['\n'] from rfl, hr]
  cases allFit j <;> rfl

end Json

namespace Program
variable {program : Program} {indent : Option Nat} {text : String}

theorem load_newline [Json.Edition] (hw : program.dump indent = .ok text)
    (hd : Node.listNesting program ≤ Json.depthLimit) :
    Program.load (text ++ "\n") = Program.load text := by
  obtain ⟨js, rfl, -, hreadable⟩ := written_of_dump hw hd
  rw [load, load, Json.read?, Json.read?, Json.readWithin_render_newline escaping_unicode hreadable]

theorem normalize_dump (hw : program.dump indent = .ok text) :
    LineBreak.normalize (text ++ "\n").toList = (text ++ "\n").toList := by
  obtain ⟨js, -, rfl⟩ := dump_eq_ok_iff.1 hw
  refine LineBreak.normalize_eq_self ?_
  rw [String.toList_append, List.mem_append]
  rintro (h | h)
  · exact Json.return_not_mem_render escaping_unicode _ h
  · revert h
    decide

end Program
end AwaitScript
