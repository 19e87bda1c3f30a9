import Scoping.Graph.Encode
import Scoping.Main
import Scoping.Proofs.Graph.Capture
import Scoping.Proofs.Graph.Hops
import Scoping.Proofs.Graph.Observation
import Scoping.Proofs.Graph.Occupant
import Scoping.Proofs.Import
import Scoping.Proofs.Lines
import Scoping.Proofs.Reduce
import Scoping.Proofs.Session.Address
import Scoping.Proofs.Session.Ancestry
import Scoping.Proofs.Session.Arena
import Scoping.Proofs.Session.Bound
import Scoping.Proofs.Session.Checked
import Scoping.Proofs.Session.Contract
import Scoping.Proofs.Session.Copies
import Scoping.Proofs.Session.Final
import Scoping.Proofs.Session.Later
import Scoping.Proofs.Session.Names
import Scoping.Proofs.Session.Order
import Scoping.Proofs.Session.Permanence
import Scoping.Proofs.Session.Qualifier
import Scoping.Proofs.Session.Requests
import Scoping.Proofs.Tree.Document
import Scoping.Tree.Builder
