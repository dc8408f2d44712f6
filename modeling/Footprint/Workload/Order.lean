import Footprint.Project.Order
import Footprint.Workload.Basic

/-!
# Ordering a long chain of calls

Each function of a chain calls the next one and the one after it.  The measures
are the length of the order and its two ends.
-/

namespace Footprint.Workload

/-- The name of a function of the chain. -/
def chainName (i : Nat) : String := "f" ++ toString i

/-- The callees of the function at place `i` of a chain of `n`. -/
def chainCallees (n i : Nat) : List String :=
  ([i + 1, i + 2].filter fun j => j < n).map chainName

/-- The call graph of a chain of `n` functions. -/
def chain (n : Nat) : Table String (List String) :=
  ⟨(List.range n).map fun i => (chainName i, chainCallees n i)⟩

/-- Orders a chain of `n` functions from its first one. -/
def ordering (n : Nat) : Workload :=
  match Order.ofTable? (chain n) (chainName 0) with
  | some order =>
    { measures := .ok
        [.count order.length, .name (order.head?.getD ""), .name (order.getLast?.getD "")] }
  | none => { measures := .error .endless }

end Footprint.Workload
