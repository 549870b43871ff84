import SolidChecker.Fixpoint.MonotoneExact
import SolidChecker.Fixpoint.Tidy
import SolidChecker.Fixpoint.RoundReplayExact
import SolidChecker.Fixpoint.KeyedFoldExact
import SolidChecker.Producer.Reset
import SolidChecker.Producer.ReuseServes
import SolidChecker.Backend.Connected
import SolidChecker.Retained.MovedDeclarations
import SolidChecker.Retained.DeltaExact
import SolidChecker.Wire.Dictionary
import SolidChecker.Producer.CompactExact
import SolidChecker.Passes.MergeExact
import SolidChecker.Building.BuildQueries
import SolidChecker.Building.FallbackManifest
import SolidChecker.Passes.ReferenceIndex
import SolidChecker.Producer.ExportRescan
import SolidChecker.Passes.Completion
import SolidChecker.Suppression.Apply
import SolidChecker.Backend.ProgramBoundary
import SolidChecker.Report.JsonOutput
import SolidChecker.Ast.UnconditionalCalls
import SolidChecker.Ast.CompletionCover
import SolidChecker.Ast.SpanIndex
import SolidChecker.Owners.HandOuts
import SolidChecker.Reachability.Incremental
