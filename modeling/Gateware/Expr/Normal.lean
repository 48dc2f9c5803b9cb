import Gateware.Expr.Slice

/-!
# Normal targets

A target in normal form is a signal, a slice of a signal, or a concatenation or choice of such.
Slices of concatenations and choices are pushed inward.
-/
namespace Gateware.Expr

mutual
/-- Bits `start` up to `stop` of a normal target, in normal form. -/
def narrow (e : Expr) (start stop : Nat) : Expr :=
  if start = 0 ∧ stop = e.width then e
  else
    match e with
    | .concat ps => join (narrowParts ps 0 start stop)
    | .mux s cs => .mux s (narrowAll cs start stop)
    | .slice a base _ => a.extract (base + start) (base + stop)
    | .literal c => (Expr.literal c).extract start stop
    | .signal s => (Expr.signal s).extract start stop
    | .ref r => (Expr.ref r).extract start stop
    | .unary op a => (Expr.unary op a).extract start stop
    | .binary op a b => (Expr.binary op a b).extract start stop
    | .replicate a n => (Expr.replicate a n).extract start stop

/-- The normal parts that bits `start` up to `stop` cover, the first part beginning at bit `lo`. -/
def narrowParts : List Expr → (lo start stop : Nat) → List Expr
  | [], _, _, _ => []
  | p :: ps, lo, start, stop =>
    let hi := lo + p.width
    if start < hi ∧ lo < stop then
      p.narrow (max start lo - lo) (min stop hi - lo) :: narrowParts ps hi start stop
    else narrowParts ps hi start stop

def narrowAll : List Expr → (start stop : Nat) → List Expr
  | [], _, _ => []
  | c :: cs, start, stop => c.narrow start stop :: narrowAll cs start stop
end

/-- Take a slice of a normal target. -/
def sliceNormal (start stop : Nat) : Expr → Expr
  | .mux s cs => .mux s (narrowAll cs start stop)
  | .concat ps => (Expr.concat ps).narrow start stop
  | e => e.extract start stop

mutual
/-- A target in normal form. -/
def normal : Expr → Expr
  | .slice a start stop => a.normal.sliceNormal start stop
  | .concat ps => .concat (normalAll ps)
  | .mux s cs => .mux s (normalAll cs)
  | .literal c => .literal c
  | .signal s => .signal s
  | .ref r => .ref r
  | .unary op a => .unary op a
  | .binary op a b => .binary op a b
  | .replicate a n => .replicate a n

def normalAll : List Expr → List Expr
  | [] => []
  | p :: ps => p.normal :: normalAll ps
end

theorem normalAll_eq (ps : List Expr) : normalAll ps = ps.map normal := by
  induction ps with
  | nil => rfl
  | cons p ps ih => rw [normalAll, ih, List.map_cons]

mutual
/-- Whether a target leaves open which signal it drives. -/
def hasChoice : Expr → Bool
  | .mux .. => true
  | .concat ps => anyChoice ps
  | .slice a _ _ => a.hasChoice
  | _ => false

def anyChoice : List Expr → Bool
  | [] => false
  | p :: ps => p.hasChoice || anyChoice ps
end

theorem anyChoice_eq (ps : List Expr) : anyChoice ps = (ps.map hasChoice).any id := by
  induction ps with
  | nil => rfl
  | cons p ps ih => rw [anyChoice, ih, List.map_cons, List.any_cons, id]

end Gateware.Expr
