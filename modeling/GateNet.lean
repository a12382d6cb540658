import GateNet.Gate.CompactCount
import GateNet.Main
import GateNet.Proofs.ValueLines
import GateNet.Proofs.Netlist.Reordering
import GateNet.Proofs.Gadget.Cost
import GateNet.Proofs.Command.Agreement
import GateNet.Proofs.Command.Oblivious
import GateNet.Proofs.Netlist.Rejection
import GateNet.Proofs.Loading
import GateNet.Proofs.Undamaged
import GateNet.Proofs.StoreHistory
