import Fexpr.Main
import Fexpr.Proofs.Anchoring.Session
import Fexpr.Proofs.Arena.Holding
import Fexpr.Proofs.Arena.Outward
import Fexpr.Proofs.Balance
import Fexpr.Proofs.Calling.Composition
import Fexpr.Proofs.Calling.Requoting
import Fexpr.Proofs.Data
import Fexpr.Proofs.Delegation
import Fexpr.Proofs.Dictionary.Runs
import Fexpr.Proofs.Expansion.Supply
import Fexpr.Proofs.Limit
import Fexpr.Proofs.Literals
import Fexpr.Proofs.Matching.Arity
import Fexpr.Proofs.Matching.NormalForm
import Fexpr.Proofs.Matching.Traceless
import Fexpr.Proofs.Policy
import Fexpr.Proofs.Promises.Once
import Fexpr.Proofs.Reader.Conservation
import Fexpr.Proofs.Reader.Depth
import Fexpr.Proofs.Reader.Shape
import Fexpr.Proofs.Return.Knot
import Fexpr.Proofs.Return.Tower
