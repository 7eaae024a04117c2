import AwaitScript.Main
import AwaitScript.Proofs.Grammar
import AwaitScript.Proofs.GrammarMachine
import AwaitScript.Proofs.LexicalRules
import AwaitScript.Proofs.SourceGrammar
import AwaitScript.Proofs.FloatText
import AwaitScript.Proofs.EncodedText
import AwaitScript.Proofs.JsonText
import AwaitScript.Proofs.Traversal
import AwaitScript.Proofs.WireRoundTrip
import AwaitScript.Proofs.EmissionShape
import AwaitScript.Proofs.LoweringOutcome
import AwaitScript.Proofs.ReferencePrinter
import AwaitScript.Proofs.StatementBoundary
import AwaitScript.Proofs.CompiledSource
import AwaitScript.Proofs.BracketLayout
import AwaitScript.Proofs.UniqueReading
import AwaitScript.Proofs.SourceRoles
import AwaitScript.Proofs.SpelledTokens
import AwaitScript.Proofs.SourceWriter
import AwaitScript.Proofs.EmittedSites
import AwaitScript.Proofs.TargetStatements
import AwaitScript.Proofs.FirstDefect
import AwaitScript.Proofs.DumpedSource
import AwaitScript.Proofs.CommandArguments
import AwaitScript.Proofs.WorkingDirectory
import AwaitScript.Proofs.CommandEffects
import AwaitScript.Proofs.JsonCharacters
import AwaitScript.Proofs.StoredText
import AwaitScript.Proofs.CommandRoutes
import AwaitScript.Proofs.ReportedPlaces
import AwaitScript.Proofs.Completion
import AwaitScript.Proofs.SourceLayout
import AwaitScript.Proofs.FlattenedLines
import AwaitScript.Proofs.FunctionBody
import AwaitScript.Proofs.OutputLines
import AwaitScript.Proofs.StringLiterals
import AwaitScript.Proofs.DumpedEmission
import AwaitScript.Proofs.EmissionGrammar
import AwaitScript.Proofs.CommandObservation
import AwaitScript.Proofs.KnownFields
import AwaitScript.Proofs.RecognisedMembers
import AwaitScript.Proofs.LiteralEnds
