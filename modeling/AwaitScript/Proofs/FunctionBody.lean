import AwaitScript.Proofs.SourceWriter

/-! A program as the body of a function. What stands between the braces is cut into the same tokens, and
these are read as the same statements, as in a text of its own. -/
namespace AwaitScript

namespace Token

def functionHead : List Token := [openParen, closeParen, arrow, openBrace]

end Token

namespace Lexeme

/-- A body on lines of its own has its own tokens, whatever it starts and ends with. -/
theorem tokens_function (body : List Char) :
    (scan ("() => \x7b".toList ++ '\n' :: (body ++ '\n' :: "\x7d".toList))).map token =
      Token.functionHead ++ ((scan body).map token ++ [.closeBrace]) := by
  have hhead : (scanFrom false 0 "() => \x7b".toList).map token = Token.functionHead := by cbv
  have hclose : (scanFrom false 0 "\x7d".toList).map token = [.closeBrace] := by cbv
  rw [scan, tokens_append_newline false 0 0, tokens_append_newline false 0 0, hhead, hclose, scan]

end Lexeme

namespace Surface

theorem parse_function {tokens : List Token} {ss : List Statement} (h : parse tokens = .ok ss) :
    parse (Token.functionHead ++ (tokens ++ [.closeBrace])) = .ok [.expression (.function [] ss)] := by
  -- the head leaves the state in which a body is read
  have hhead : State.start.reads Token.functionHead = some ⟨.statement, [.body [] []], []⟩ := rfl
  refine run_eq_ok_iff.2 ⟨⟨.operator (.function [] ss), [], []⟩, ?_, rfl⟩
  rw [State.reads_append_of hhead]
  exact reads_body h [] [] []

end Surface

namespace Source

theorem surface_function {body : List Char} {ss : List Surface.Statement} (h : surface body = .ok ss) :
    surface ("() => \x7b".toList ++ '\n' :: (body ++ '\n' :: "\x7d".toList)) =
      .ok [.expression (.function [] ss)] := by
  apply mapError_eq_ok_iff.2
  rw [Lexeme.tokens_function]
  exact Surface.parse_function (mapError_eq_ok_iff.1 h)

/-- A text that is a program is, on lines of its own in the braces of a function, the body of this
function with the same statements. -/
theorem parse_as_body {source : String} {program : Program} (h : parse source = .ok program) :
    parse ("() => \x7b" ++ "\n" ++ source ++ "\n" ++ "\x7d") = .ok [.function [] program] := by
  obtain ⟨ss, hsurface, helaborate⟩ := parse_eq_ok_iff.1 h
  refine parse_eq_ok_iff.2 ⟨[.expression (.function [] ss)], ?_, ?_⟩
  · simpa using surface_function hsurface
  · simp only [Surface.elaborateStatements, Surface.Statement.elaborate, Surface.Expression.elaborate,
      Surface.elaborateParameters, helaborate]
    rfl

theorem parse_as_body_braces :
    parse "(from) => \x7b from \x7d\nimport true from \"m\" \x7b true \x7d" =
        .ok [.function [[.identifier "from"]] [.identifier "from"], .imports "true" [.scalar 'm'],
          .object [(.identifier "true", .identifier "true")]] ∧
      parse ("() => \x7b" ++ "\n" ++ "(from) => \x7b from \x7d\nimport true from \"m\" \x7b true \x7d" ++ "\n" ++
          "\x7d") =
        .ok [.function [] [.function [[.identifier "from"]] [.identifier "from"],
          .imports "true" [.scalar 'm'], .object [(.identifier "true", .identifier "true")]]] := by
  have h : parse "(from) => \x7b from \x7d\nimport true from \"m\" \x7b true \x7d" =
      .ok [.function [[.identifier "from"]] [.identifier "from"], .imports "true" [.scalar 'm'],
        .object [(.identifier "true", .identifier "true")]] := by cbv
  exact ⟨h, parse_as_body h⟩

end Source
end AwaitScript
