import ExactInference.BeliefNetwork
import ExactInference.FactorGraph.Components
import ExactInference.FactorGraph.JointWeight
import ExactInference.FactorGraph.RandomFamilies
import ExactInference.Journal
import ExactInference.Report
import ExactInference.Proofs.AnySchedule
import ExactInference.Proofs.AttachedQueries
import ExactInference.Proofs.ConnectedVariables
import ExactInference.Proofs.DecodingOrders
import ExactInference.Proofs.DirectLookups
import ExactInference.Proofs.DividedMessages
import ExactInference.Proofs.EliminationRounds
import ExactInference.Proofs.EvidenceProbability
import ExactInference.Proofs.FillIn
import ExactInference.Proofs.GraphCalls
import ExactInference.Proofs.GraphFamilies
import ExactInference.Proofs.JointLogWeights
import ExactInference.Proofs.JunctionTrees
import ExactInference.Proofs.Hints
import ExactInference.Proofs.ImpossibleEvidence
import ExactInference.Proofs.Interleavings
import ExactInference.Proofs.KeptFactors
import ExactInference.Proofs.KeptForms
import ExactInference.Proofs.Lifecycle
import ExactInference.Proofs.MaxMarginals
import ExactInference.Proofs.Observations
import ExactInference.Proofs.StoredLogarithms
import ExactInference.Proofs.Explanations
