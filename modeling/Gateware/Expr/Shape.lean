import Gateware.Expr.Basic

/-!
# The shape of an expression

Every expression has a width and a signedness of its own, wide enough that arithmetic loses
nothing: sums grow by a bit, products add widths, left shifts make room for the largest amount.
-/
namespace Gateware

/-- The widths of two operands once their signs agree: an unsigned operand beside a signed one
needs a bit to stay non-negative. -/
def Shape.aligned (a b : Shape) : Nat × Nat :=
  match a.signed, b.signed with
  | true, false => (a.width, saturate (b.width + 1))
  | false, true => (saturate (a.width + 1), b.width)
  | _, _ => (a.width, b.width)

/-- `2^n`, cut off at the largest width. -/
def powWidth (n : Nat) : Nat := if n < 32 then 1 <<< n else maxWidth

/-- The bits a left shift adds: the literal amount, or the largest one the operand's shape holds.
A negative literal adds none. -/
def Shape.growth (amount : Option Literal) (b : Shape) : Nat :=
  match amount with
  | some c => saturate c.value.toNat
  | none => (if b.signed then powWidth (b.width - 1) else powWidth b.width) - 1

/-- The bits a right shift adds for the sake of negative amounts. -/
def Shape.slack (amount : Option Literal) (b : Shape) : Nat :=
  match amount with
  | some _ => 0
  | none => if b.signed then powWidth (b.width - 1) else 0

/-- The shape of a binary operation; for shifts it matters whether the amount is a literal. -/
def BinaryOp.shape (op : BinaryOp) (a b : Shape) (amount : Option Literal) : Shape :=
  match op with
  | .add | .sub =>
    ⟨saturate (max (a.aligned b).1 (a.aligned b).2 + 1), a.signed || b.signed⟩
  | .mul =>
    let sum := saturate (a.width + b.width)
    match a.signed, b.signed with
    | false, false => ⟨sum, false⟩
    | true, true => ⟨max (sum - 1) 1, true⟩
    | _, _ => ⟨sum, true⟩
  | .and | .or | .xor => ⟨max (a.aligned b).1 (a.aligned b).2, a.signed && b.signed⟩
  | .shl => ⟨saturate (a.width + b.growth amount), a.signed⟩
  | .shr => ⟨saturate (a.width + b.slack amount), a.signed⟩
  | .eq | .ne | .lt | .le | .gt | .ge => .unsigned 1

/-- The shape of an unary operation. -/
def UnaryOp.shape (op : UnaryOp) (a : Shape) : Shape :=
  match op with
  | .invert => a
  | .neg => if a.signed then a else ⟨saturate (a.width + 1), true⟩

namespace Expr

mutual
/-- The width and signedness that every value of the expression fits in. The parts of a
concatenation are added up without a bound; a sum of more than `maxWidth` bits, which overflows a
32-bit width, is left out of account here and where concatenations are evaluated and stored to. -/
def shape : Expr → Shape
  | .literal c => c.shape
  | .signal s => s.shape
  | .ref _ => .unsigned 1
  | .unary op a => op.shape a.shape
  | .binary op a b => op.shape a.shape b.shape b.literal?
  | .slice a start stop => ⟨stop - start, a.shape.signed⟩
  | .concat ps => .unsigned ((shapes ps).foldr (fun s w => s.width + w) 0)
  | .replicate a n => .unsigned (saturate (a.shape.width * n))
  | .mux _ cs => ⟨(shapes cs).foldl (fun w s => max w s.width) 0, (shapes cs).any (·.signed)⟩

def shapes : List Expr → List Shape
  | [] => []
  | p :: ps => p.shape :: shapes ps
end

def width (e : Expr) : Nat := e.shape.width

theorem shapes_eq_map (ps : List Expr) : shapes ps = ps.map shape := by
  induction ps with
  | nil => rfl
  | cons p ps ih => simp [shapes, ih]

end Expr

end Gateware
