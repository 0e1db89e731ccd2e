import Clausal.Valuation
import Clausal.Workspace
import Clausal.Proofs.Clause
import Clausal.Proofs.Dimacs.Offence
import Clausal.Proofs.Dimacs.Parser
import Clausal.Proofs.Dimacs.RoundTrip
import Clausal.Proofs.Encoding.Cardinality
import Clausal.Proofs.Encoding.Irredundant
import Clausal.Proofs.Encoding.Mapping.Excess
import Clausal.Proofs.Encoding.Mapping.Unary
import Clausal.Proofs.Encoding.Parity
import Clausal.Proofs.Formula.Agreement
import Clausal.Proofs.Formula.Allocation
import Clausal.Proofs.Formula.Audit
import Clausal.Proofs.Formula.History
import Clausal.Proofs.Formula.Labels
import Clausal.Proofs.Formula.Majority
import Clausal.Proofs.Formula.Mapping
import Clausal.Proofs.Formula.Refusal
import Clausal.Proofs.Formula.Shuffle
import Clausal.Proofs.Formula.Sound
import Clausal.Proofs.Formula.Text
import Clausal.Proofs.Graph.Canonical
import Clausal.Proofs.PseudoBoolean.Evaluation
import Clausal.Proofs.PseudoBoolean.Refusal
import Clausal.Proofs.PseudoBoolean.Text
import Clausal.Proofs.Registry
import Clausal.Proofs.Substitution
import Clausal.Proofs.VarGroup.Labels
import Clausal.Proofs.VarGroup.Valid
