import Footprint.Console
import Footprint.Main
import Footprint.Workload.Memory
import Footprint.Workload.Order
import Footprint.Workload.Projects
import Footprint.Workload.Structs
import Footprint.Proofs.WholeSystem
import Footprint.Proofs.Operators
import Footprint.Proofs.Types.Normal
import Footprint.Proofs.Shadowing
import Footprint.Proofs.Addresses.Swept
import Footprint.Proofs.Configured.Calls
import Footprint.Proofs.Types.Failures
import Footprint.Proofs.StraightLine.Indirection
import Footprint.Proofs.Types.Qualified
import Footprint.Proofs.Untouched
import Footprint.Proofs.Addresses.Points
import Footprint.Proofs.Memory.Listing
import Footprint.Proofs.ArrayUse
import Footprint.Proofs.Cycles
import Footprint.Proofs.Types.Redeclared
