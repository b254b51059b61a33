import ExactLinear.Main
import ExactLinear.Proofs.CramersRule
import ExactLinear.Proofs.EquivalentSystems
import ExactLinear.Proofs.TranscriptSteps
import ExactLinear.Proofs.Representation
import ExactLinear.Proofs.RowTransformation
import ExactLinear.Proofs.Rank
import ExactLinear.Proofs.InvertibleSystems
import ExactLinear.Proofs.TranscriptDeterminant
import ExactLinear.Proofs.CrossProducts
import ExactLinear.Proofs.Computation
import ExactLinear.Proofs.WellFormed
import ExactLinear.Proofs.SolverChoice
import ExactLinear.Proofs.Bindings
import ExactLinear.Proofs.Concatenation
import ExactLinear.Proofs.WrittenPrograms
import ExactLinear.Proofs.StoreFile
import ExactLinear.Proofs.ReachableStores
import ExactLinear.Proofs.Kinds
import ExactLinear.Proofs.Turns
import ExactLinear.Proofs.ProcessChain
import ExactLinear.Proofs.Interaction
import ExactLinear.Proofs.Inverse
import ExactLinear.Proofs.GeneralSolution
import ExactLinear.Proofs.DocumentMeaning
import ExactLinear.Proofs.LoadedStores
import ExactLinear.Proofs.MatrixAlgebra
import ExactLinear.Proofs.RowBuffer
import ExactLinear.Proofs.CramerFailures
import ExactLinear.Proofs.SessionFailures
import ExactLinear.Proofs.LiteralLanguage
import ExactLinear.Proofs.PrintedExpressions
import ExactLinear.Proofs.PrintedSolutions
import ExactLinear.Proofs.PrintedMatrices
import ExactLinear.Proofs.ProductTranscript
import ExactLinear.Proofs.StoreHistory
import ExactLinear.Proofs.SessionInPlace
import ExactLinear.Proofs.PrintedOperations
