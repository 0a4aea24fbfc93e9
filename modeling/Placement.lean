import Placement.Candidates
import Placement.Constraint
import Placement.Disjoint
import Placement.Domain
import Placement.Engine
import Placement.Event
import Placement.Fault
import Placement.Inconsistency
import Placement.Index
import Placement.Narrowing
import Placement.Neighborhood
import Placement.Neighborhood.Forced
import Placement.Precedence
import Placement.Profile
import Placement.Proofs.Analysis
import Placement.Proofs.Backtracking
import Placement.Proofs.Barriers
import Placement.Proofs.CachedCandidates
import Placement.Proofs.Choices
import Placement.Proofs.Confinement
import Placement.Proofs.Crowds
import Placement.Proofs.Drift
import Placement.Proofs.Ends
import Placement.Proofs.Entailment
import Placement.Proofs.Envelope
import Placement.Proofs.Exact
import Placement.Proofs.ExactCandidates
import Placement.Proofs.Failures
import Placement.Proofs.FeasibleOrigins
import Placement.Proofs.FixedOverlaps
import Placement.Proofs.Fixpoint
import Placement.Proofs.ForbiddenRegions
import Placement.Proofs.FullProfiles
import Placement.Proofs.Heights
import Placement.Proofs.HollowRectangles
import Placement.Proofs.Imposing
import Placement.Proofs.Insertion
import Placement.Proofs.LateCreation
import Placement.Proofs.LeastOverlaps
import Placement.Proofs.Leaves
import Placement.Proofs.Lockstep
import Placement.Proofs.MaximalStretches
import Placement.Proofs.Misuse
import Placement.Proofs.NeighborOrder
import Placement.Proofs.OrderIndependence
import Placement.Proofs.Ownership
import Placement.Proofs.Passes
import Placement.Proofs.Placing
import Placement.Proofs.ProfilePruning
import Placement.Proofs.Progress
import Placement.Proofs.Reading
import Placement.Proofs.Renumbering
import Placement.Proofs.Replay
import Placement.Proofs.Resting
import Placement.Proofs.Restoration
import Placement.Proofs.Rounds
import Placement.Proofs.Saturation
import Placement.Proofs.Session
import Placement.Proofs.SharedStores
import Placement.Proofs.Sights
import Placement.Proofs.SolutionsKept
import Placement.Proofs.Standstill
import Placement.Proofs.StepFunctions
import Placement.Proofs.Tightening
import Placement.Proofs.UndecidedLengths
import Placement.Proofs.UsedSpace
import Placement.Proofs.Verdicts
import Placement.Proofs.Visits
import Placement.Proofs.Volume
import Placement.Proofs.VolumeBounds
import Placement.Proofs.Waking
import Placement.Proofs.Writing
import Placement.Propagator
import Placement.Rectangle
import Placement.Rectangle.Extent
import Placement.Rectangle.Layout
import Placement.Region
import Placement.Search
import Placement.Sorting
import Placement.Span
import Placement.Span.Merge
import Placement.Statistics
import Placement.Store
import Placement.Tighten
import Placement.Trail
import Placement.Width
