import Pathwise.Main
import Pathwise.Program.Json
import Pathwise.Proofs.Placement.Coverage
import Pathwise.Proofs.PacketParser.Agreement
import Pathwise.Proofs.Fragment.Arity
import Pathwise.Proofs.Fragment.Lowering
import Pathwise.Proofs.Node.Declared
import Pathwise.Proofs.Node.KeptHeaders
import Pathwise.Proofs.Compile.Alone
import Pathwise.Proofs.Route.Merged
import Pathwise.Proofs.Program.Collected
import Pathwise.Proofs.Agent.Admission
import Pathwise.Proofs.Agent.Replies
import Pathwise.Proofs.Agent.Reported
import Pathwise.Proofs.Fragment.Depth
import Pathwise.Proofs.Fragment.Framed
import Pathwise.Proofs.Fragment.Hosts
import Pathwise.Proofs.Route.Shortest
import Pathwise.Proofs.Fragment.SwitchTable
import Pathwise.Proofs.Node.HeaderFiles
import Pathwise.Proofs.Placement.Monotone
import Pathwise.Proofs.Project.Quotation
import Pathwise.Proofs.Target.Literals
