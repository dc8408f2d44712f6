import Footprint.Memory.Basic

/-!
# Workloads

A workload runs a part of the library on made-up input of a given size, and ends
with a few measures of what it did.  A change in the behaviour of that part shows
in the measures, so a workload can check itself while it is timed.  Every run
starts from nothing, so each gives the same measures.
-/

namespace Footprint

/-- A measure of a run. -/
inductive Measure where
  | count (n : Int)
  | name (s : String)
deriving Repr, DecidableEq, Inhabited

/-- What a run of a workload left behind. -/
structure Workload where
  /-- The measures, unless the run stopped. -/
  measures : Except Fault (List Measure)
  /-- The files it wrote: the name and the text. -/
  written : List (String × String) := []
  types : TypeTable := {}
  memory : Memory := {}

namespace Workload

/-- Counts as measures. -/
def counts (ns : List Nat) : List Measure := ns.map fun (n : Nat) => .count n

/-- The directory that workloads write their files to. -/
def scratch (here : String) : String := here ++ "/tmp"

end Workload

end Footprint
