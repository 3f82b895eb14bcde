import LogSurgeon.FiniteAutomata.DfaLanguage
import LogSurgeon.FiniteAutomata.DfaTermination
import LogSurgeon.FiniteAutomata.DfaRegisters
import LogSurgeon.FiniteAutomata.DfaIntersect
import LogSurgeon.FiniteAutomata.RegisterStore
import LogSurgeon.FiniteAutomata.RegisterLists
import LogSurgeon.FiniteAutomata.RegisterRenaming
import LogSurgeon.FiniteAutomata.AcceptingOps
import LogSurgeon.FiniteAutomata.DfaEquivalence
import LogSurgeon.FiniteAutomata.ClosureTermination
import LogSurgeon.LexerPieces
import LogSurgeon.InputWindow
import LogSurgeon.ReaderParserRetries
import LogSurgeon.IncompleteEvents
import LogSurgeon.BufferParser
import LogSurgeon.LogEventCopy
import LogSurgeon.CaptureMatches
import LogSurgeon.WildcardQueryParser.QueryExistence
import LogSurgeon.WildcardQueryParser.QueryMonoid
import LogSurgeon.ScannerStates
import LogSurgeon.SchemaParser.Repetitions
import LogSurgeon.WildcardScan
import LogSurgeon.MultilineEvents
import LogSurgeon.SchemaParser.FirstSets
import LogSurgeon.SchemaParser.SchemaString
import LogSurgeon.FiniteAutomata.CapturePaths
import LogSurgeon.LongestTokens
import LogSurgeon.CharacterClasses
import LogSurgeon.WildcardQueryParser.RegexStrings
import LogSurgeon.FiniteAutomata.FinalRegisters
import LogSurgeon.BufferSizes
import LogSurgeon.LineNumbers
import LogSurgeon.LineEvents
import LogSurgeon.FiniteAutomata.UnicodeIntervalTree
import LogSurgeon.FiniteAutomata.IntervalTreePop
import LogSurgeon.LosslessEvents
import LogSurgeon.GrownPositions
import LogSurgeon.Lib.Settles
import LogSurgeon.Lib.Numbering
import LogSurgeon.Lib.ShiftReduce
import LogSurgeon.Lib.Propagation
import LogSurgeon.SchemaParser.ItemSets
import LogSurgeon.SchemaParser.Lookaheads
import LogSurgeon.SchemaParser.Lr1ItemSets
import LogSurgeon.SchemaParser.ParsingTable
import LogSurgeon.SchemaParser.TableGeneration
import LogSurgeon.SchemaParser.Conflicts
import LogSurgeon.SchemaParser.ParseRuns
import LogSurgeon.Lib.Interning
import LogSurgeon.SchemaParser.GrammarBuilder
import LogSurgeon.SchemaParser.SemanticRules
import LogSurgeon.SchemaParser.SchemaGrammar
import LogSurgeon.Lib.Outcomes
import LogSurgeon.ScannerTypes
import LogSurgeon.SchemaParser.SemanticParse
import LogSurgeon.SchemaParser.RuleSorts
import LogSurgeon.SchemaParser.SchemaSymbols
import LogSurgeon.SchemaParser.SchemaText
import LogSurgeon.SchemaParser.SchemaCalls
import LogSurgeon.SchemaParser.SchemaLogParser
