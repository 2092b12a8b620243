import Nix.Lib.PrefixReader
import Nix.Lib.SortedList
import Nix.Util.Types
import Nix.Util.Serialise
import Nix.Util.StringSource
import Nix.Util.CanonPaths
import Nix.Util.Archive
import Nix.Util.ArchiveGrammar
import Nix.Util.ArchiveRoundTrip
import Nix.Util.ArchiveSkip
import Nix.Util.CanonPathAllowed
import Nix.Store.TempRoots
import Nix.Store.GarbageCollector
import Nix.Store.CollectorSafety
import Nix.Store.Liveness
import Nix.Lib.Graphs
import Nix.Lib.Transitions
import Nix.Lib.Quoted
import Nix.Lib.Results
import Nix.Lib.Rewriting
import Nix.Lib.SortedTrees
import Nix.Lib.Tries
import Nix.Store.ATerms
import Nix.Store.ClientCaches
import Nix.Store.ContentAddresses
import Nix.Store.DerivationOutputs
import Nix.Store.HashModulo
import Nix.Store.HashModuloInjective
import Nix.Store.HashModuloRenaming
import Nix.Store.LocalOverlayStores
import Nix.Flake.LockFileRoundTrip
import Nix.Flake.FindInputRuns
import Nix.Eval.AttrSetDesugaring
import Nix.Build.WakeUps
import Nix.Util.ClosureRuns
import Nix.Store.PathLockExclusion
import Nix.Store.Handshakes
import Nix.Store.ExportImportTransfer
import Nix.Util.ProcessGraphs
import Nix.Util.FramedStreams
import Nix.Store.NarInfoJson
import Nix.Store.RewritingSinks
import Nix.Store.Names
import Nix.Util.CanonPathOperations
import Nix.Store.DerivedPaths
import Nix.Store.DerivedPathMaps
import Nix.Store.Fingerprints
import Nix.Store.OutputPathFilling
import Nix.Store.DerivationReplacements
import Nix.Store.DerivationTexts
import Nix.Store.DerivationResolutions
import Nix.Eval.BindingsUpdates
import Nix.Eval.StaticEnvs
import Nix.Eval.ValueEquality
import Nix.Eval.ValueToJson
import Nix.Eval.AttrDbs
import Nix.Util.PeekSortRuns
import Nix.Store.MetadataColumns
import Nix.Util.CanonPathRelative
import Nix.Store.StorePathTexts
import Nix.Store.ContentAddressPaths
import Nix.Eval.StringLiterals
import Nix.Eval.IndentedStringEscapes
import Nix.Eval.GenericClosure
import Nix.Util.GitRestore
import Nix.Util.NarListingRuns
import Nix.Util.CaseHackRoundTrip
import Nix.Util.ShellWords
import Nix.Util.HashTexts
import Nix.Util.HashCanonicity
import Nix.Eval.ReplaceStrings
import Nix.Eval.AttrSetBuiltins
import Nix.Store.Profiles
import Nix.Store.ProfileCleanUps
import Nix.Flake.InputUrls
import Nix.Flake.InputUrlRoundTrip
import Nix.Lib.Memo
import Nix.Store.OutputQueries
import Nix.Store.OutputQueryMaps
import Nix.Store.BuildEnv
import Nix.Store.BuildEnvCollisions
import Nix.Store.BuildEnvPackages
import Nix.Util.ClosureVisits
import Nix.Store.PathInfoSignatures
import Nix.Store.NarInfoVerification
import Nix.Store.QueryMissing
import Nix.Store.QueryMissingAccounts
import Nix.Store.QueryMissingResults
import Nix.Util.ResolveSymlinks
import Nix.Store.StructuredAttrs
import Nix.Store.DerivationChecks
import Nix.Store.DerivationCheckResults
import Nix.Util.Pools
import Nix.Eval.CallFunction
import Nix.Eval.CurriedCalls
import Nix.Util.LruCaches
import Nix.Util.BufferedSources
import Nix.Util.BaseNWidths
import Nix.Util.RewriteLogs
import Nix.Eval.ContextRoundTrips
import Nix.Util.PosTableLayouts
