import DotCall.Text
import DotCall.Ascending
import DotCall.Symbol
import DotCall.SymbolTable
import DotCall.Diagnostic
import DotCall.Diagnostic.Outbox
import DotCall.Type.Node
import DotCall.Type.Summary
import DotCall.Type.Layout
import DotCall.Type.Store
import DotCall.Type.Checkpoint
import DotCall.Type.Tree
import DotCall.Type.Expansion
import DotCall.Type.Transplant
import DotCall.Type.Unification
import DotCall.Type.Head
import DotCall.Declaration
import DotCall.Declaration.Ancestry
import DotCall.Call.Resolver
import DotCall.Call.Coercion
import DotCall.Call.Candidate
import DotCall.Call.Failure
import DotCall.Call.DerefChain
import DotCall.Call.Gathering
import DotCall.Call.Verdict
import DotCall.Call.Choice
import DotCall.Call.Search
import DotCall.Call.Outcome
import DotCall.Call.Confirmation
import DotCall.Call.Report
import DotCall.Call.Requests
import DotCall.Proofs.TreeAssignment
import DotCall.Proofs.StoreInvariant
import DotCall.Proofs.StoreOperations
import DotCall.Proofs.TrailRestore
import DotCall.Proofs.LinkOrder
import DotCall.Proofs.LinkChange
import DotCall.Proofs.StoreSolution
import DotCall.Proofs.RootFinding
import DotCall.Proofs.UnificationSteps
import DotCall.Proofs.SoundStore
import DotCall.Proofs.MostGeneral
import DotCall.Proofs.QuietWork
import DotCall.Proofs.NewVariables
import DotCall.Proofs.TypeRebuilding
import DotCall.Proofs.ReachedStores
import DotCall.Proofs.TwinStores
import DotCall.Proofs.TwinUnification
import DotCall.Proofs.TwinRuns
import DotCall.Proofs.SearchOrder
import DotCall.Proofs.PatternTrees
import DotCall.Proofs.PatternMatching
import DotCall.Proofs.CoveringPatterns
import DotCall.Proofs.CoercionTargets
import DotCall.Proofs.NarrowedCoercions
import DotCall.Proofs.ReceiverSteps
import DotCall.Proofs.CandidateGathering
import DotCall.Proofs.ImplIndex
import DotCall.Proofs.CompleteGathering
import DotCall.Proofs.SingleImpl
import DotCall.Proofs.ConfirmedChoices
import DotCall.Proofs.ExactCheckpoints
import DotCall.Proofs.LinkedVariables
import DotCall.Proofs.RecursionDepth
import DotCall.Proofs.UnificationTermination
import DotCall.Proofs.UndisturbedStores
import DotCall.Proofs.QuietResolution
import DotCall.Proofs.InternedTypes
import DotCall.Proofs.FinerStores
import DotCall.Proofs.LastingRefutation
import DotCall.Proofs.Commitments
import DotCall.Proofs.LastingCalls
import DotCall.Proofs.InferredArguments
import DotCall.Proofs.VerdictsAlone
import DotCall.Proofs.NestingDepth
import DotCall.Proofs.Derivability
import DotCall.Proofs.AgreeingOutcomes
import DotCall.Proofs.TwinCoercions
import DotCall.Proofs.TwinResolution
import DotCall.Proofs.RenamedImpls
import DotCall.Proofs.ReorderedImpls
import DotCall.Proofs.DeclarationOrder
import DotCall.Proofs.CarriedOutcomes
import DotCall.Proofs.SharedTypes
import DotCall.Proofs.AdoptedTrees
import DotCall.Proofs.CarriedVariables
import DotCall.Proofs.IndependentRequests
import DotCall.Proofs.TraitAncestry
import DotCall.Proofs.OwnMethods
import DotCall.Proofs.BoundedChain
import DotCall.Proofs.RuleMatching
import DotCall.Proofs.BracketedTexts
import DotCall.Proofs.ShownErrors
import DotCall.Proofs.ReportedErrors
import DotCall.Proofs.PointerLayers
import DotCall.Proofs.PointerChains
import DotCall.Proofs.ImportHints
import DotCall.Proofs.OutboxRuns
import DotCall.Proofs.RepeatedErrors
import DotCall.Proofs.InternedTexts
import DotCall.Proofs.SilentResolution
import DotCall.Proofs.RankedHints
import DotCall.Proofs.ReservedSlots
import DotCall.Proofs.ExactSummaries
import DotCall.Proofs.StoredLayouts
import DotCall.Proofs.ComposedInstances
import DotCall.Proofs.HeadBuckets
