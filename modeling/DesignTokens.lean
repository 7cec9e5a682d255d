import DesignTokens.Files.Watcher
import DesignTokens.Session
import DesignTokens.Proofs.Css.Guard
import DesignTokens.Proofs.Css.Locality
import DesignTokens.Proofs.Css.LexemeRun
import DesignTokens.Proofs.Css.Nesting
import DesignTokens.Proofs.Css.Derivation
import DesignTokens.Proofs.Css.Shift
import DesignTokens.Proofs.Css.Unplaced
import DesignTokens.Proofs.Css.NameAlone
import DesignTokens.Proofs.Css.NodeSpans
import DesignTokens.Proofs.Css.NumberPart
import DesignTokens.Proofs.Css.NumericNodes
import DesignTokens.Proofs.Css.PrintedNumber
import DesignTokens.Proofs.Lengths
import DesignTokens.Proofs.ColorArguments
import DesignTokens.Proofs.HexColors
import DesignTokens.Proofs.Replacement
import DesignTokens.Proofs.Outermost
import DesignTokens.Proofs.KeptEdits
import DesignTokens.Proofs.CallReports
import DesignTokens.Proofs.Css.Alone
import DesignTokens.Proofs.CallText
import DesignTokens.Proofs.Compilation
import DesignTokens.Proofs.Css.Joining
import DesignTokens.Proofs.Sequence
import DesignTokens.Proofs.Css.FunctionToken
import DesignTokens.Proofs.CallSites
import DesignTokens.Proofs.ValueCalls
import DesignTokens.Proofs.CallAccount
import DesignTokens.Proofs.Css.Unfinished
import DesignTokens.Proofs.Css.SelfContained
import DesignTokens.Proofs.Css.AtRules
import DesignTokens.Proofs.Css.Trivia
import DesignTokens.Proofs.Css.Placement
import DesignTokens.Proofs.Css.Coverage
import DesignTokens.Proofs.Emission
import DesignTokens.Proofs.Naming
import DesignTokens.Proofs.NameTokens
import DesignTokens.Proofs.EmittedSheet
import DesignTokens.Proofs.Registers
import DesignTokens.Proofs.TokenIndex
import DesignTokens.Proofs.TableNodes
import DesignTokens.Proofs.MergedTables
import DesignTokens.Proofs.ReadTables
import DesignTokens.Proofs.LeafIndex
import DesignTokens.Proofs.NameClash
import DesignTokens.Proofs.PropertyNames
import DesignTokens.Proofs.Transformation
import DesignTokens.Proofs.DotPaths
import DesignTokens.Proofs.PathLookup
import DesignTokens.Proofs.AddedPrefix
import DesignTokens.Proofs.CallGrammar
import DesignTokens.Proofs.MissingLocations
import DesignTokens.Proofs.Collection
import DesignTokens.Proofs.Json.Lexemes
import DesignTokens.Proofs.Json.Trees
import DesignTokens.Proofs.SettingsText
import DesignTokens.Proofs.Files.PathSteps
import DesignTokens.Proofs.Files.Places
import DesignTokens.Proofs.Files.StoreRun
import DesignTokens.Proofs.Files.StoreKeys
import DesignTokens.Proofs.Files.Directories
import DesignTokens.Proofs.Files.Discovery
import DesignTokens.Proofs.Files.DefaultConfig
import DesignTokens.Proofs.Files.CachedDocuments
import DesignTokens.Proofs.Files.ReuseOrder
import DesignTokens.Proofs.Files.AppliedChanges
import DesignTokens.Proofs.Files.WatchRuns
import DesignTokens.Proofs.Files.Polls
import DesignTokens.Proofs.CallKeys
