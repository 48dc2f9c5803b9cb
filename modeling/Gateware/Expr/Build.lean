import Gateware.Expr.Shape
import Gateware.Fault

/-!
# Checked constructors

Constructors that refuse expressions without a meaning, and the check for those that slip in
through plain operators.
-/
namespace Gateware.Expr

/-- Bits `start` up to `stop`, which must be a non-empty range within the value. -/
def slice? (a : Expr) (start stop : Nat) : Except Fault Expr :=
  if start < stop ∧ stop ≤ a.width then .ok (.slice a start stop)
  else .error (.sliceOutOfBounds start stop a.width)

def bit? (a : Expr) (index : Nat) : Except Fault Expr := a.slice? index (saturate (index + 1))

/-- `width` bits from `offset` on, which may be a value of the running circuit. -/
def part? (a offset : Expr) (width : Nat) : Except Fault Expr :=
  match offset with
  | .literal c =>
    if 0 ≤ c.value ∧ c.value ≤ maxWidth then
      a.slice? c.value.toNat (saturate (c.value.toNat + width))
    else .error (.malformedExpression "part" s!"offset {c.value} is not a valid bit index")
  | _ => (Expr.binary .shr a offset).slice? 0 width

/-- At least one copy. -/
def replicate? (a : Expr) (count : Nat) : Except Fault Expr :=
  if count = 0 then
    .error (.malformedExpression "replicate" "a replication needs at least one copy")
  else .ok (.replicate a count)

/-- At least one choice. -/
def array? (selector : Expr) (choices : List Expr) : Except Fault Expr :=
  if choices.isEmpty then .error (.malformedExpression "array" "an array needs at least one choice")
  else .ok (.mux selector choices)

mutual
/-- The expression and everything below it, parents first. -/
def nodes : Expr → List Expr
  | .literal c => [.literal c]
  | .signal s => [.signal s]
  | .ref r => [.ref r]
  | .unary op a => .unary op a :: a.nodes
  | .binary op a b => .binary op a b :: (a.nodes ++ b.nodes)
  | .slice a i j => .slice a i j :: a.nodes
  | .concat ps => .concat ps :: nodesOf ps
  | .replicate a n => .replicate a n :: a.nodes
  | .mux s cs => .mux s cs :: (s.nodes ++ nodesOf cs)

def nodesOf : List Expr → List Expr
  | [] => []
  | p :: ps => p.nodes ++ nodesOf ps
end

theorem nodesOf_eq (ps : List Expr) : nodesOf ps = ps.flatMap nodes := by
  induction ps with
  | nil => rfl
  | cons p ps ih => rw [nodesOf, ih, List.flatMap_cons]

/-- What is wrong with a node by itself: a negative literal shift, or an empty replication. -/
def nodeFault : Expr → Option Fault
  | .binary op a (.literal c) =>
    if op.isShift ∧ c.value < 0 then
      some (.malformedExpression (Expr.binary op a (.literal c)).text
        s!"shift amount {c.value} is negative")
    else none
  | .replicate a 0 =>
    some (.malformedExpression (Expr.replicate a 0).text "a replication needs at least one copy")
  | _ => none

/-- The first node, parents first, that has no meaning. -/
def fault? (e : Expr) : Option Fault := e.nodes.findSome? nodeFault

end Gateware.Expr
