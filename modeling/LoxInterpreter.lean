import LoxInterpreter.Main
import LoxInterpreter.Store.Describe
import LoxInterpreter.Proofs.Grammar.Derivation
import LoxInterpreter.Proofs.Grammar.Faults
import LoxInterpreter.Proofs.Grammar.Reading
import LoxInterpreter.Proofs.Grammar.ReadingPrograms
import LoxInterpreter.Proofs.Grammar.Meets
import LoxInterpreter.Proofs.Grammar.Recognition
import LoxInterpreter.Proofs.Grammar.RecognitionPrograms
import LoxInterpreter.Proofs.Grammar.ParserCorrect
import LoxInterpreter.Proofs.Lexical.Front
import LoxInterpreter.Proofs.Lexical.ScannerCorrect
import LoxInterpreter.Proofs.Runtime.Respected
import LoxInterpreter.Proofs.Runtime.CurrentScope
import LoxInterpreter.Proofs.Lexical.Restart
import LoxInterpreter.Proofs.JoinedSources
import LoxInterpreter.Proofs.Runtime.Invariant
import LoxInterpreter.Proofs.Runtime.RunsKeep
import LoxInterpreter.Proofs.Runtime.Reachable
import LoxInterpreter.Proofs.Grammar.Trees
import LoxInterpreter.Proofs.Runtime.Names
import LoxInterpreter.Proofs.Runtime.ErrorTokens
import LoxInterpreter.Proofs.Tree.Returns
import LoxInterpreter.Proofs.Runtime.Returns
import LoxInterpreter.Proofs.Places.Bare
import LoxInterpreter.Proofs.Places.Mirrors
import LoxInterpreter.Proofs.Places.Parsing
import LoxInterpreter.Proofs.Places.Running
import LoxInterpreter.Proofs.PlacesIrrelevant
import LoxInterpreter.Proofs.Session.Outcomes
import LoxInterpreter.Proofs.Session.Histories
import LoxInterpreter.Proofs.Shell.Blocks
import LoxInterpreter.Proofs.Shell.Submitting
import LoxInterpreter.Proofs.Shell.Conversation
import LoxInterpreter.Proofs.Program.FileRuns
import LoxInterpreter.Proofs.Runtime.CallLimit
import LoxInterpreter.Proofs.Runtime.Growth
import LoxInterpreter.Proofs.Runtime.Moments
import LoxInterpreter.Proofs.Runtime.LexicalScope
import LoxInterpreter.Proofs.Lexical.LineNumbers
import LoxInterpreter.Proofs.Lexical.JoinedTexts
import LoxInterpreter.Proofs.Lexical.Positions
import LoxInterpreter.Proofs.Lexical.Written
import LoxInterpreter.Proofs.Grammar.ErrorTokens
import LoxInterpreter.Proofs.Text.Lines
import LoxInterpreter.Proofs.Shell.SourceLines
import LoxInterpreter.Proofs.Shell.Reports
import LoxInterpreter.Proofs.Shell.TypedStrings
import LoxInterpreter.Proofs.Grammar.Settings
import LoxInterpreter.Proofs.Grammar.SettingsPrograms
import LoxInterpreter.Proofs.Grammar.Progress
import LoxInterpreter.Proofs.Grammar.Blame
import LoxInterpreter.Proofs.Grammar.Recovery
import LoxInterpreter.Proofs.Grammar.Completed
import LoxInterpreter.Proofs.Grammar.Lookahead
import LoxInterpreter.Proofs.Grammar.Beginnings
import LoxInterpreter.Proofs.Grammar.BeginningsPrograms
import LoxInterpreter.Proofs.Grammar.FirstError
import LoxInterpreter.Proofs.Runtime.Layers
import LoxInterpreter.Proofs.Runtime.FunctionMaps
import LoxInterpreter.Proofs.Runtime.Collapse
import LoxInterpreter.Proofs.Runtime.CollapsedRuns
import LoxInterpreter.Proofs.Runtime.ForLoops
import LoxInterpreter.Proofs.Runtime.Forest
import LoxInterpreter.Proofs.Diagnostic.Excerpts
import LoxInterpreter.Proofs.Diagnostic.Underlines
import LoxInterpreter.Proofs.Diagnostic.SpreadLexemes
import LoxInterpreter.Proofs.Diagnostic.LineTables
import LoxInterpreter.Proofs.Grammar.Braces
import LoxInterpreter.Proofs.Shell.OpenTexts
import LoxInterpreter.Proofs.Number.Rounding
import LoxInterpreter.Proofs.Number.Floats
import LoxInterpreter.Proofs.Number.Texts
import LoxInterpreter.Proofs.Number.CanonicalText
import LoxInterpreter.Proofs.Lexical.Spelling
import LoxInterpreter.Proofs.Tree.Forms
import LoxInterpreter.Proofs.Tree.ReadableNodes
import LoxInterpreter.Proofs.Tree.Readability
import LoxInterpreter.Proofs.Program.Listings
import LoxInterpreter.Proofs.Runtime.Situations
import LoxInterpreter.Proofs.Runtime.PerformedRuns
import LoxInterpreter.Proofs.Runtime.GlobalScope
import LoxInterpreter.Proofs.Number.Equality
import LoxInterpreter.Proofs.Runtime.Identity
