/-!
# Ordering a graph

Nodes are numbers below a size; edges are listed in the order they were added. A depth-first walk
puts every node before its successors unless there is a cycle, in which case a node that comes too
late is reported.
-/
namespace Gateware

/-- A directed graph on the numbers below `size`. -/
structure Graph where
  size : Nat
  edges : List (Nat × Nat) := []
deriving Repr

namespace Graph

/-- Add an edge unless it is there. -/
def connect (g : Graph) (a b : Nat) : Graph :=
  if (a, b) ∈ g.edges then g else { g with edges := g.edges ++ [(a, b)] }

def succs (g : Graph) (v : Nat) : List Nat := (g.edges.filter (·.1 = v)).map (·.2)

def preds (g : Graph) (v : Nat) : List Nat := (g.edges.filter (·.2 = v)).map (·.1)

/-- The nodes found so far, and the finished ones, the last one first. -/
structure Walk where
  seen : List Nat := []
  order : List Nat := []

/-- Walk from a node. Every level finds a new node, so as many levels as nodes are enough. -/
def walkFrom (g : Graph) : (levels : Nat) → Walk → Nat → Walk
  | 0, w, _ => w
  | levels + 1, w, v =>
    if v ∈ w.seen then w
    else
      let w := (g.succs v).foldl (walkFrom g levels) { w with seen := v :: w.seen }
      { w with order := v :: w.order }

/-- All nodes, each one before those that were finished before it. -/
def finished (g : Graph) : List Nat := ((List.range g.size).foldl (g.walkFrom g.size) {}).order

/-- The first predecessor of a node that comes after it. -/
def late? (g : Graph) : (done order : List Nat) → Option Nat
  | _, [] => none
  | done, v :: vs =>
    match (g.preds v).find? (· ∉ v :: done) with
    | some u => some u
    | none => late? g (v :: done) vs

/-- The nodes in an order in which edges only lead forward, or a node on the way to a cycle. -/
def order (g : Graph) : Except Nat (List Nat) :=
  match g.late? [] g.finished with
  | some v => .error v
  | none => .ok g.finished

end Graph

end Gateware
