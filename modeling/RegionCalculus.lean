import RegionCalculus.Session.Step
import RegionCalculus.Proofs.Runs
import RegionCalculus.Proofs.Growth
import RegionCalculus.Proofs.Validity
import RegionCalculus.Proofs.Discovery
import RegionCalculus.Proofs.Vectors
import RegionCalculus.Proofs.Consistency
import RegionCalculus.Proofs.Caches
import RegionCalculus.Proofs.Answers
import RegionCalculus.Proofs.Derivations
import RegionCalculus.Proofs.WeightLoops
import RegionCalculus.Proofs.Construction
import RegionCalculus.Proofs.Arithmetic
import RegionCalculus.Proofs.Sessions
import RegionCalculus.Proofs.Slots
import RegionCalculus.Proofs.Steadiness
import RegionCalculus.Proofs.Histories
import RegionCalculus.Proofs.SpanningTrees
import RegionCalculus.Proofs.DepthFirst
import RegionCalculus.Proofs.TreePaths
import RegionCalculus.Proofs.CycleSpace
import RegionCalculus.Proofs.ConsistentRegions
import RegionCalculus.Proofs.Equality
import RegionCalculus.Proofs.TreeChoice
import RegionCalculus.Proofs.TokenGame
import RegionCalculus.Proofs.CycleVectors
import RegionCalculus.Proofs.Nonnegativity
import RegionCalculus.Proofs.Lockstep
import RegionCalculus.Proofs.Futures
import RegionCalculus.Proofs.Stability
import RegionCalculus.Proofs.Views
import RegionCalculus.Proofs.Twins
import RegionCalculus.Proofs.Observers
import RegionCalculus.Proofs.Afresh
import RegionCalculus.Proofs.Transparency
import RegionCalculus.Proofs.Accounts
import RegionCalculus.Proofs.WellFormed
import RegionCalculus.Proofs.NormalForm
import RegionCalculus.Proofs.Chains
import RegionCalculus.Proofs.EventOrders
import RegionCalculus.Proofs.ReachablePart
import RegionCalculus.Proofs.MissingStates
import RegionCalculus.Proofs.CachedTrees
import RegionCalculus.Proofs.LeastMarkings
import RegionCalculus.Proofs.CommonAncestors
import RegionCalculus.Proofs.SimpleCycles
import RegionCalculus.Proofs.CycleCounts
import RegionCalculus.Proofs.WorkLists
import RegionCalculus.Proofs.Subtrees
import RegionCalculus.Proofs.RootPaths
import RegionCalculus.Proofs.SignedCycles
import RegionCalculus.Proofs.Purification
import RegionCalculus.Proofs.MissingVectors
import RegionCalculus.Proofs.UncountedArcs
import RegionCalculus.Proofs.Linearity
import RegionCalculus.Proofs.Durability
import RegionCalculus.Proofs.Verdicts
import RegionCalculus.Proofs.Congruence
import RegionCalculus.Proofs.Origins
import RegionCalculus.Proofs.Mismatches
import RegionCalculus.Proofs.FailedChanges
import RegionCalculus.Proofs.GivenArcs
import RegionCalculus.Proofs.Rebuilding
import RegionCalculus.Proofs.NewIds
import RegionCalculus.Proofs.RegionChecks
import RegionCalculus.Proofs.EventIndex
