import AwaitScript.Proofs.DumpedSource
import AwaitScript.Proofs.SourceWriter

/-! String literals in JSON and in source texts. What is written for a string in the JSON of a program is,
as a source text, the program that is this string. -/
namespace AwaitScript

namespace Program

def stringDocument (indent : Option Nat) (literal : String) : String :=
  let layout : Json.Layout := ⟨indent, Literal.unicode⟩
  String.ofList ('[' :: layout.newline 1 ++ '\x7b' :: layout.newline 2 ++
    "\"type\"".toList ++ layout.colon ++ "\"string\"".toList ++ ',' :: layout.newline 2 ++
    "\"value\"".toList ++ layout.colon ++ literal.toList ++
    layout.newline 1 ++ '\x7d' :: layout.newline 0 ++ [']'])

theorem dump_string {value : Text} (h : value.isScalar) (indent : Option Nat) :
    Program.dump [.string value] indent = .ok (stringDocument indent value.literal) := by
  obtain ⟨s, hs⟩ := Option.isSome_iff_exists.1 ((Text.toString?_isSome value).2 h)
  have hjson : Node.listToJson? [.string value] =
      some [Wire.record .string [("value", .str s)]] := by
    simp [Node.listToJson?, Node.toJson?, Wire.string?, hs]
  have htype : Literal.write Literal.unicode "type".toList = "\"type\"".toList := by decide
  have hstring : Literal.write Literal.unicode "string".toList = "\"string\"".toList := by decide
  have hvalue : Literal.write Literal.unicode "value".toList = "\"value\"".toList := by decide
  have hliteral : value.literal.toList = Literal.write Literal.unicode s.toList := by
    rw [Text.literal, hs, Option.getD_some, String.toList_ofList]
  refine dump_eq_ok_iff.2 ⟨_, hjson, congrArg String.ofList ?_⟩
  simp only [Json.write, Json.writeItems, Json.writeMembers, Wire.record, Kind.name, htype, hstring, hvalue,
    hliteral, List.append_assoc, List.cons_append, List.nil_append]

end Program

namespace Source

theorem tokens_literal (value : Text) :
    (Lexeme.scan value.literal.toList).map Lexeme.token = [.string value.literal] := by
  obtain ⟨c, cs, htext, hc, hscan⟩ : ∃ c cs, value.literal.toList = c :: cs ∧ Token.isBlank c = false ∧
      Token.scan false c (cs ++ []) = (.string value.literal, []) :=
    Token.scan_string false (Surface.isSpelled_literal value)
  rw [List.append_nil] at hscan
  rw [Lexeme.scan, htext, Lexeme.scanFrom, if_neg (by simp [hc]), hscan]
  simp [Lexeme.scanFrom]

theorem parse_literal {value : Text} (h : value.isScalar) :
    parse value.literal = .ok [.string value] := by
  have hsays : Surface.SaysStatement (.string value) (.expression (.string value.literal)) :=
    (Surface.says_string h).statement (by simp [Node.leading?])
  refine parse_eq_ok_iff.2 ⟨[.expression (.string value.literal)], ?_, ?_⟩
  · apply mapError_eq_ok_iff.2
    rw [tokens_literal]
    exact hsays.parses
  · rw [Surface.elaborateStatements, hsays.elaborates]
    rfl

/-- The JSON of a string without lone surrogates holds a literal of it, in every layout, and this literal
is a source text that says nothing but the string. -/
theorem parse_dumped_literal {value : Text} (h : value.isScalar) (indent : Option Nat) :
    Program.dump [.string value] indent = .ok (Program.stringDocument indent value.literal) ∧
      parse value.literal = .ok [.string value] :=
  ⟨Program.dump_string h indent, parse_literal h⟩

def escapedText : Text := "\\\"\\\\\n\x00\x7f\u2028😀".toList.map .scalar

theorem parse_dumped_literal_escapes :
    escapedText.isScalar ∧
      Program.dump [.string escapedText] none =
        .ok "[\x7b\"type\":\"string\",\"value\":\"\\\\\\\"\\\\\\\\\\n\\u0000\x7f\u2028😀\"\x7d]" ∧
      parse "\"\\\\\\\"\\\\\\\\\\n\\u0000\x7f\u2028😀\"" = .ok [.string escapedText] := by
  have h : escapedText.isScalar := by decide
  have hliteral : escapedText.literal = "\"\\\\\\\"\\\\\\\\\\n\\u0000\x7f\u2028😀\"" := by decide
  obtain ⟨hdump, hparse⟩ := parse_dumped_literal h none
  rw [hliteral] at hdump hparse
  exact ⟨h, hdump.trans (congrArg Except.ok (by decide)), hparse⟩

end Source

end AwaitScript
