import Gateware.Expr.Shape

/-!
# Taking bits out of expressions

Slices and extensions in simplified form: slices of literals are literals, slices of slices are one
slice, and a slice of a concatenation keeps only the parts it covers.
-/
namespace Gateware.Expr

/-- A concatenation, or the only part of one. -/
def join : List Expr → Expr
  | [p] => p
  | ps => .concat ps

mutual
/-- Bits `start` up to `stop` of an expression at least that wide. -/
def extract (e : Expr) (start stop : Nat) : Expr :=
  if start = 0 ∧ stop = e.width then e
  else
    match e with
    | .literal c =>
      .sized (toBits c.value c.shape.width >>> start : Nat) ⟨stop - start, c.shape.signed⟩
    | .slice a base _ => .slice a (base + start) (base + stop)
    | .concat ps => join (extractParts ps 0 start stop)
    | .signal s => .slice (.signal s) start stop
    | .ref r => .slice (.ref r) start stop
    | .unary op a => .slice (.unary op a) start stop
    | .binary op a b => .slice (.binary op a b) start stop
    | .replicate a n => .slice (.replicate a n) start stop
    | .mux s cs => .slice (.mux s cs) start stop

/-- What bits `start` up to `stop` cover of parts that begin at bit `lo`. -/
def extractParts : List Expr → (lo start stop : Nat) → List Expr
  | [], _, _, _ => []
  | p :: ps, lo, start, stop =>
    let hi := lo + p.width
    if start < hi ∧ lo < stop then
      p.extract (max start lo - lo) (min stop hi - lo) :: extractParts ps hi start stop
    else extractParts ps hi start stop
end

/-- What stands above an expression to make it `pad` bits wider: its top bit if it is signed, else
zeros. A signed expression without bits has no top bit: nothing is fitted that is `unfit`. -/
def extension (e : Expr) (pad : Nat) : Expr :=
  if e.shape.signed ∧ 0 < e.width then .replicate (e.extract (e.width - 1) e.width) pad
  else .sized 0 (.unsigned pad)

/-- The expression cut or extended to exactly `width` bits. -/
def fit (e : Expr) (width : Nat) : Expr :=
  if e.width = width then e
  else
    match e.literal? with
    | some c => .sized c.value (.unsigned width)
    | none =>
      if width < e.width then e.extract 0 width
      else .concat [e, e.extension (width - e.width)]

/-- Whether fitting the expression to a width would look for its sign below its lowest bit, which
stops the program: it is signed, has no bits and is to be extended. -/
def unfit (e : Expr) (width : Nat) : Bool :=
  e.shape.signed && e.width = 0 && 0 < width && e.literal?.isNone

end Gateware.Expr
