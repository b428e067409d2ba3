import BoolScript.Expr.Render
import BoolScript.Main
import BoolScript.Proofs.CorrectPrefix
import BoolScript.Proofs.Descent
import BoolScript.Proofs.Exchange
import BoolScript.Proofs.ExpressionGrammar
import BoolScript.Proofs.ExpressionRun
import BoolScript.Proofs.FormulaRun
import BoolScript.Proofs.ProgramGrammar
import BoolScript.Proofs.Progress
import BoolScript.Proofs.ReadingSteps
import BoolScript.Proofs.Requests
import BoolScript.Proofs.Runs
import BoolScript.Proofs.Supply
import BoolScript.Proofs.Tiling
import BoolScript.Proofs.Unambiguity
import BoolScript.Proofs.UpFront
import BoolScript.Proofs.Vocabulary
import BoolScript.Reading.Soundness
import BoolScript.Session.Step
import BoolScript.Proofs.ScannedTiles
import BoolScript.Proofs.Tokenization
import BoolScript.Proofs.SoundTrees
import BoolScript.Proofs.ScriptSafety
import BoolScript.Proofs.Correspondence
import BoolScript.Proofs.AlikeScripts
import BoolScript.Proofs.LineBreaks
import BoolScript.Proofs.SplitPrograms
import BoolScript.Proofs.Advance
import BoolScript.Proofs.FullOutput
import BoolScript.Proofs.Deeds
import BoolScript.Proofs.Course
import BoolScript.Proofs.SessionHistory
import BoolScript.Proofs.Spacing
import BoolScript.Proofs.TextRoundTrip
import BoolScript.Proofs.SingleStatements
import BoolScript.Proofs.Replay
import BoolScript.Proofs.Spellings
import BoolScript.Proofs.Selection
import BoolScript.Proofs.Invocations
import BoolScript.Proofs.CarriageReturns
import BoolScript.Proofs.LineEndings
import BoolScript.Proofs.Attempts
import BoolScript.Proofs.Atoms
import BoolScript.Proofs.FirstFault
import BoolScript.Proofs.Nodes
import BoolScript.Proofs.UnknownCharacters
import BoolScript.Proofs.Leftovers
import BoolScript.Proofs.Noninterference
import BoolScript.Proofs.UnreadInput
import BoolScript.Proofs.Independence
import BoolScript.Proofs.DeadOperands
import BoolScript.Proofs.Resumption
import BoolScript.Proofs.Cuts
import BoolScript.Proofs.PrefixForm
import BoolScript.Proofs.Messages
import BoolScript.Proofs.KindsAlone
