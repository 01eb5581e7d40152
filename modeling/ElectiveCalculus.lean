import ElectiveCalculus.Expr.Replacement
import ElectiveCalculus.Expr.Grammar
import ElectiveCalculus.Equation.Complete
import ElectiveCalculus.Main
import ElectiveCalculus.Proofs.RoundTrip
import ElectiveCalculus.Proofs.Conclusion
import ElectiveCalculus.Proofs.Reachability
import ElectiveCalculus.Proofs.CanonicalForm
import ElectiveCalculus.Proofs.EliminationOrder
import ElectiveCalculus.Proofs.Substitution
import ElectiveCalculus.Proofs.SymbolicElimination
import ElectiveCalculus.Proofs.InferenceFaults
import ElectiveCalculus.Proofs.InputOrder
import ElectiveCalculus.Proofs.Syllogism
import ElectiveCalculus.Proofs.LogNeutrality
import ElectiveCalculus.Proofs.Independence
import ElectiveCalculus.Proofs.FaultDiagnosis
import ElectiveCalculus.Proofs.RenderedEquation
import ElectiveCalculus.Proofs.Join
import ElectiveCalculus.Proofs.SingleEquation
import ElectiveCalculus.Proofs.Consistency
import ElectiveCalculus.Proofs.Refusal
import ElectiveCalculus.Proofs.SymbolUse
import ElectiveCalculus.Proofs.Rewriting
import ElectiveCalculus.Proofs.PaddedEquation
import ElectiveCalculus.Proofs.ArgumentOrder
import ElectiveCalculus.Proofs.Juxtaposition
import ElectiveCalculus.Proofs.ReadBack
import ElectiveCalculus.Proofs.SinglePremise
import ElectiveCalculus.Proofs.CountedTables
import ElectiveCalculus.Proofs.EliminatedRows
import ElectiveCalculus.Proofs.Trace
import ElectiveCalculus.Proofs.OutputDiscipline
import ElectiveCalculus.Proofs.CallRanges
