import AwaitScript.Source.Diagnostic
import AwaitScript.Source.Elaboration
import AwaitScript.Source.Lexeme
import AwaitScript.Source.Parser

/-!
Source text to program. A text that is no program at all is reported as such even when a literal or an
assignment in it is faulty too.
-/

namespace AwaitScript.Source

def unexpected (text : List Char) (offset : Nat) : ParseError :=
  let position := Position.ofOffset text offset
  match text.drop offset with
  | [] => .unexpectedEnd position
  | c :: cs =>
    match (Token.scan false c cs).1 with
    | .stray c => .unexpectedCharacter c position
    | token => .unexpectedToken (String.ofList token.text) position

def faultError (text : List Char) (lexemes : List Lexeme) : Surface.Fault → ParseError
  | .token index taken =>
    unexpected text (((lexemes[index]?).map Lexeme.offset).getD text.length + taken)
  | .ending =>
    .unexpectedEnd (.ofOffset text ((lexemes.getLast?.map Lexeme.offset).getD 0))

def isFaultyString (lexeme : Lexeme) : Bool :=
  match lexeme.token with
  | .string text => !(Literal.read text.toList).isOk
  | _ => false

/-- The report of a defect. Strings are read in the order of the text, so the first faulty one in the
text is the one reported. -/
def defectError (text : List Char) (lexemes : List Lexeme) : Surface.Defect → ParseError
  | .literal literal fault =>
    .invalidString literal fault
      (.ofOffset text (((lexemes.find? isFaultyString).map Lexeme.offset).getD 0))
  | .target kind => .invalidTarget kind
  | .longInteger => .longInteger

def surface (text : List Char) : Except ParseError (List Surface.Statement) :=
  let lexemes := Lexeme.scan text
  (Surface.parse (lexemes.map Lexeme.token)).mapError (faultError text lexemes)

def parse (source : String) : Except ParseError Program :=
  match surface source.toList with
  | .error e => .error e
  | .ok statements =>
    (Surface.elaborateStatements statements).mapError
      (defectError source.toList (Lexeme.scan source.toList))

/-! ### Text with lone surrogates

A lone surrogate is read as any other character is that no token but a string can have. -/

/-- A string with a lone surrogate in it, if it is a string at all, is taken for just a lone surrogate: it
cannot be written in either case. -/
def standIn (text : Text) (lexeme : Lexeme) : Lexeme :=
  match lexeme.token with
  | .string s =>
    if Text.isScalar ((text.drop lexeme.offset).take s.length) || isFaultyString lexeme then lexeme
    else { lexeme with token := .string "\"\\ud800\"" }
  | _ => lexeme

def parseMasked (text : Text) : Except ParseError Program :=
  let lexemes := (Lexeme.scan text.masked).map (standIn text)
  match Surface.parse (lexemes.map Lexeme.token) with
  | .error fault => .error (faultError text.masked lexemes fault)
  | .ok statements =>
    (Surface.elaborateStatements statements).mapError (defectError text.masked lexemes)

def standing (text : Text) (position : Position) (shown : String) : Text :=
  let offset := (List.range text.length).find? fun n => Position.ofOffset text.masked n = position
  (text.drop (offset.getD 0)).take shown.length

end AwaitScript.Source
