import RevisedSimplex.Session
import RevisedSimplex.Proofs.Entries
import RevisedSimplex.Proofs.AugmentedSystem
import RevisedSimplex.Proofs.BasisHistories
import RevisedSimplex.Proofs.BasisPositions
import RevisedSimplex.Proofs.AdjointSolves
import RevisedSimplex.Proofs.FactorizationAccounts
import RevisedSimplex.Proofs.SingularColumns
import RevisedSimplex.Proofs.Edges
import RevisedSimplex.Proofs.Feasibility
import RevisedSimplex.Proofs.FeasiblePivots
import RevisedSimplex.Proofs.DualPivots
import RevisedSimplex.Proofs.IncrementalValues
import RevisedSimplex.Proofs.Infeasibility
import RevisedSimplex.Proofs.Optimality
import RevisedSimplex.Proofs.Interruptions
import RevisedSimplex.Proofs.IterationBounds
import RevisedSimplex.Proofs.RepeatedSolves
import RevisedSimplex.Proofs.Unboundedness
import RevisedSimplex.Proofs.Updates
import RevisedSimplex.Proofs.SingletonOrder
import RevisedSimplex.Proofs.WarmRestarts
import RevisedSimplex.Proofs.ZeroEntries
import RevisedSimplex.Proofs.Saturation
import RevisedSimplex.Proofs.FactorizationOrder
import RevisedSimplex.Proofs.SafeSolves
import RevisedSimplex.Proofs.ArenaHistories
import RevisedSimplex.Proofs.AtomicIterations
import RevisedSimplex.Proofs.PivotMagnitudes
import RevisedSimplex.Proofs.ZeroPivots
import RevisedSimplex.Proofs.LowestAverages
import RevisedSimplex.Proofs.BoundEdits
import RevisedSimplex.Proofs.RepairedBases
import RevisedSimplex.Proofs.SignedZeros
import RevisedSimplex.Proofs.StoredEntries
import RevisedSimplex.Proofs.TwoPassTests
import RevisedSimplex.Proofs.DegenerateChoices
import RevisedSimplex.Proofs.AcceptedSettings
import RevisedSimplex.Proofs.FactorizationCounts
import RevisedSimplex.Proofs.RelativeRounding
