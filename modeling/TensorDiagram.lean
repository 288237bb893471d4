import TensorDiagram.Backend
import TensorDiagram.Diagram.Builder
import TensorDiagram.Plan.Text
import TensorDiagram.Proofs.AnchoredStrands
import TensorDiagram.Proofs.AppliedBraidings
import TensorDiagram.Proofs.ArityTracking
import TensorDiagram.Proofs.Bipartitions
import TensorDiagram.Proofs.ClosedMaps
import TensorDiagram.Proofs.ConjugateValues
import TensorDiagram.Proofs.ContractionOrders
import TensorDiagram.Proofs.DirectContraction
import TensorDiagram.Proofs.FlattenedRuns
import TensorDiagram.Proofs.FollowedTrees
import TensorDiagram.Proofs.HandleRuns
import TensorDiagram.Proofs.LhsIndices
import TensorDiagram.Proofs.MirrorImages
import TensorDiagram.Proofs.NestedTraces
import TensorDiagram.Proofs.PairOrders
import TensorDiagram.Proofs.PlanarGenus
import TensorDiagram.Proofs.PoppedContractions
import TensorDiagram.Proofs.PurgedFormulas
import TensorDiagram.Proofs.RenamedPlans
import TensorDiagram.Proofs.SummandRenaming
import TensorDiagram.Sample
import TensorDiagram.Tensor.Compare
import TensorDiagram.Version
