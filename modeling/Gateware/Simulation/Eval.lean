import Gateware.Expr.Shape
import Gateware.Fault

/-!
# The value of an expression

Expressions have exact integer values: operators compute without loss and the result is wrapped to
the expression's shape.
-/
namespace Gateware

/-- What can go wrong in a simulation. -/
inductive SimFault
  | combinationalLoop (signal : String)
  | unsupported (reason : String)
  | unknownDomain (domain : String)
  | design (fault : Fault)
deriving DecidableEq, Repr

def SimFault.message : SimFault → String
  | combinationalLoop signal => s!"combinational loop through `{signal}`"
  | unsupported reason => s!"unsupported: {reason}"
  | unknownDomain domain => s!"unknown clock domain `{domain}`"
  | design fault => fault.message

/-- The value of every signal. -/
abbrev Valuation := Signal → Int

/-- The choice that a selector counts to; out of range it is the last one. -/
def choiceIndex (selector : Int) (choices : Nat) : Nat :=
  if 0 ≤ selector then min selector.toNat (choices - 1) else choices - 1

/-- A shift to the left; amounts past the result's width leave nothing. -/
def shiftLeft (a amount : Int) (width : Nat) : Int :=
  if 0 ≤ amount ∧ amount ≤ width then a * (1 <<< amount.toNat : Nat) else 0

/-- A shift to the right that keeps the sign; an amount out of range leaves only the sign. -/
def shiftRight (a amount : Int) (width : Nat) : Int :=
  if 0 ≤ amount ∧ amount < width then a >>> amount.toNat else if a < 0 then -1 else 0

/-- The operation on integers. `lhsWidth` is the width of the left operand, `width` that of the
result. -/
def BinaryOp.apply (op : BinaryOp) (a b : Int) (lhsWidth width : Nat) : Int :=
  match op with
  | .add => a + b
  | .sub => a - b
  | .mul => a * b
  | .and => (toBits a width &&& toBits b width : Nat)
  | .or => (toBits a width ||| toBits b width : Nat)
  | .xor => (toBits a width ^^^ toBits b width : Nat)
  | .shl => shiftLeft a b width
  | .shr => shiftRight a b lhsWidth
  | .eq => (decide (a = b)).toNat
  | .ne => (decide (a ≠ b)).toNat
  | .lt => (decide (a < b)).toNat
  | .le => (decide (a ≤ b)).toNat
  | .gt => (decide (a > b)).toNat
  | .ge => (decide (a ≥ b)).toNat

def UnaryOp.apply (op : UnaryOp) (a : Int) : Int :=
  match op with
  | .invert => -a - 1
  | .neg => -a

/-- Bits `start` up to `stop` of a pattern. A slice that ends before it starts, whose length a
32-bit difference cannot give, counts as empty here and where slices are stored to. -/
def field (bits start stop : Nat) : Nat := (bits >>> start) &&& mask (stop - start)

/-- `count` copies of a pattern of `width` bits side by side. -/
def repeated (bits width : Nat) : (count : Nat) → Nat
  | 0 => 0
  | count + 1 => repeated bits width count ||| bits <<< (count * width)

namespace Expr

mutual
/-- The value of an expression. References to domains have none until they are resolved. -/
def eval (ρ : Valuation) : Expr → Except SimFault Int
  | .literal c => .ok (c.shape.wrap c.value)
  | .signal s => .ok (ρ s)
  | .ref r => .error (.unsupported s!"unresolved reference to domain `{r.domain}`")
  | .unary op a => do
    let v ← a.eval ρ
    return (Expr.unary op a).shape.wrap (op.apply v)
  | .binary op a b => do
    let v ← a.eval ρ
    let w ← b.eval ρ
    let shape := (Expr.binary op a b).shape
    return shape.wrap (op.apply v w a.width shape.width)
  | .slice a start stop => do
    let v ← a.eval ρ
    return (Expr.slice a start stop).shape.wrap (field (toBits v a.width) start stop)
  | .concat ps => do
    let bits ← evalParts ρ ps
    return (Expr.concat ps).shape.wrap bits
  | .replicate a count => do
    let v ← a.eval ρ
    return (Expr.replicate a count).shape.wrap (repeated (toBits v a.width) a.width count)
  | .mux s cs => do
    let v ← s.eval ρ
    let chosen ← evalChoice ρ cs (choiceIndex v cs.length)
    return (Expr.mux s cs).shape.wrap chosen

/-- The pattern of parts side by side, the first one lowest. -/
def evalParts (ρ : Valuation) : List Expr → Except SimFault Nat
  | [] => .ok 0
  | p :: ps => do
    let v ← p.eval ρ
    let rest ← evalParts ρ ps
    return toBits v p.width ||| rest <<< p.width

/-- The value of the choice at an index; no choice is zero. -/
def evalChoice (ρ : Valuation) : List Expr → Nat → Except SimFault Int
  | [], _ => .ok 0
  | c :: _, 0 => c.eval ρ
  | _ :: cs, i + 1 => evalChoice ρ cs i
end

end Expr

end Gateware
