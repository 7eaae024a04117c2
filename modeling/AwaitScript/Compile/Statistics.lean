import AwaitScript.Compile.Pipeline
import AwaitScript.Binary64.Basic
import AwaitScript.Text.Line
import AwaitScript.Text.Utf8

/-!
Sizes and times of a compilation and the report on them. Times are whole multiples of 1/1024 second, so
that every time in milliseconds is exact before it is rounded to one place.
-/

namespace AwaitScript

structure Clock where
  started : Int := 0
  parsed : Int := 0
  lowered : Int := 0
  finished : Int := 0
deriving DecidableEq, Repr

structure Statistics where
  sourceBytes : Int := 0
  sourceLines : Int := 0
  parseTime : Int := 0
  lowerTime : Int := 0
  flattenTime : Int := 0
  totalTime : Int := 0
  statementCount : Int := 0
  outputLines : Int := 0
deriving DecidableEq, Repr

namespace Statistics

def padLeft (width : Nat) (s : String) : String :=
  String.ofList (List.replicate (width - s.length) ' ') ++ s

def padRight (width : Nat) (s : String) : String :=
  s ++ String.ofList (List.replicate (width - s.length) ' ')

/-- Milliseconds with one place after the point, a half to the even neighbour. -/
def milliseconds (time : Int) : String :=
  let tenths := roundDiv (time.natAbs * 625) 64
  (if time < 0 then "-" else "") ++ toString (tenths / 10) ++ "." ++ toString (tenths % 10)

def timeColumn (time : Int) : String := padLeft 8 (milliseconds time) ++ "ms"

def row (stage time output : String) : String :=
  "  " ++ padRight 20 stage ++ " " ++ padLeft 10 time ++ "  " ++ padLeft 24 output

def rule : String :=
  let bar (n : Nat) : String := String.ofList (List.replicate n '─')
  row (bar 20) (bar 10) (bar 24)

def report (s : Statistics) : String :=
  "\n".intercalate [
    "═══ Compile Statistics ═══",
    s!"  Source: {s.sourceLines} lines, {s.sourceBytes} bytes",
    "",
    row "Stage" "Time" "Output",
    rule,
    row "Parse" (timeColumn s.parseTime) s!"{s.statementCount} statements",
    row "Lower" (timeColumn s.lowerTime) "",
    row "Flatten" (timeColumn s.flattenTime) s!"{s.outputLines} lines",
    rule,
    "  " ++ padRight 20 "Total" ++ " " ++ timeColumn s.totalTime]

end Statistics

namespace Source

/-- Compiles and takes the measures of it. The source is encoded first, which a lone surrogate prevents. -/
def measured {α : Type} (clock : Clock) (source : Text) (compile : Program → Except LowerError α)
    (lines : α → Nat) : Except Failure (α × Statistics) := do
  let text ← source.strict.mapError .encoding
  let program ← program text
  let output ← (compile program).mapError .ofLowerError
  return (output, {
    sourceBytes := (Utf8.encode text.toList).length
    sourceLines := LineBreak.count text.toList
    parseTime := clock.parsed - clock.started
    lowerTime := clock.lowered - clock.parsed
    flattenTime := clock.finished - clock.lowered
    totalTime := clock.finished - clock.started
    statementCount := program.length
    outputLines := lines output })

def compileMeasured (config : Config) (clock : Clock) (source : Text) :
    Except Failure (String × Statistics) :=
  measured clock source (·.compile config) fun output => LineBreak.count output.toList

end Source
end AwaitScript
