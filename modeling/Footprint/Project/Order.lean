import Footprint.NameSet
import Footprint.Table

/-!
# The order of analysis

Callees are analysed before their callers.  The order is found with a stack.  A
name is taken from the stack twice: the first time its callees are put on top of
it, and the second time, when they are done, it is put into the order.

On a graph where a cycle can be reached from the root the loop never ends.  On
every other graph each function is expanded once, so twice the number of edges
and the root bounds the steps.
-/

namespace Footprint.Order

/-- The callees of each function, in the order in which they are put on the stack. -/
abbrev Callees := String → List String

/-- A state of the loop. -/
structure State where
  /-- What is left to do, the top first.  A marked name has had its callees put on the stack. -/
  stack : List (String × Bool)
  /-- The names that are done. -/
  visited : List String := []
  /-- The order so far, last first. -/
  done : List String := []
deriving Repr, DecidableEq

/-- The state the loop starts in. -/
def State.init (root : String) : State := { stack := [(root, false)] }

/-- One round of the loop, unless the stack is empty. -/
def step (callees : Callees) (s : State) : Option State :=
  match s.stack with
  | [] => none
  | (f, true) :: rest =>
    some { s with
      stack := rest
      visited := if s.visited.contains f then s.visited else f :: s.visited
      done := f :: s.done }
  | (f, false) :: rest =>
    if s.visited.contains f then some { s with stack := rest }
    else
      let next := (callees f).filter fun g => !s.visited.contains g
      some { s with stack := (next.map fun g => (g, false)).reverse ++ (f, true) :: rest }

/-- The order that at most the given number of rounds find. -/
def run (callees : Callees) : Nat → State → Option (List String)
  | rounds, s =>
    match step callees s with
    | none => some s.done.reverse
    | some s' =>
      match rounds with
      | 0 => none
      | rounds + 1 => run callees rounds s'

/-- The functions that can be reached from the root, callees first, for a graph in which `edges`
counts the callees of all functions.  There is none if a cycle can be reached. -/
def fromRoot? (callees : Callees) (edges : Nat) (root : String) : Option (List String) :=
  run callees (2 * (edges + 1)) (State.init root)

/-- The order for a graph given as a table. -/
def ofTable? (g : Table String (List String)) (root : String) : Option (List String) :=
  fromRoot? (fun f => (g.get? f).getD []) (total List.length g.values) root

end Footprint.Order
