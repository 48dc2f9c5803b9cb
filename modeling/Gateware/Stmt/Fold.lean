import Gateware.Expr.Slice
import Gateware.Stmt.Sets

/-!
# Folding statements into expressions

Combinational statements run on expressions in place of numbers. Every signal starts at its reset
value, assignments replace what a signal holds, and the ways of a branch meet in a choice. The last
assignment on every path wins.
-/
namespace Gateware

/-- The expression that each assigned signal holds so far. -/
abbrev Symbolic := OrdMap Signal Expr

namespace Symbolic

/-- The reset value as a literal. -/
def initial (s : Signal) : Expr := .sized s.reset s.shape

/-- What a signal holds. -/
def held (env : Symbolic) (s : Signal) : Expr := env.getD s (initial s)

/-- Where the two ways differ, choose by the condition. -/
def merge (cond : Expr) (yes no : Symbolic) : Symbolic :=
  .ofKeys (yes.keys ∪ no.keys) fun s =>
    if yes.held s = no.held s then yes.held s else .select cond (yes.held s) (no.held s)

mutual
/-- What a target holds. -/
def heldBy (env : Symbolic) : Expr → Expr
  | .signal s => env.held s
  | .slice a start stop => (env.heldBy a).extract start stop
  | .concat ps => .concat (env.heldByParts ps)
  | .mux s cs => .mux s (env.heldByParts cs)
  | .literal c => .literal c
  | .ref r => .ref r
  | .unary op a => .unary op a
  | .binary op a b => .binary op a b
  | .replicate a n => .replicate a n

def heldByParts (env : Symbolic) : List Expr → List Expr
  | [] => []
  | p :: ps => env.heldBy p :: env.heldByParts ps
end

/-- The value `old` with bits `start` up to `stop` replaced by `new`. -/
def splice (old new : Expr) (start stop : Nat) : Expr :=
  .join ((if 0 < start then [old.extract 0 start] else [])
    ++ [new.fit (stop - start)]
    ++ (if stop < old.width then [old.extract stop old.width] else []))

/-- Whether the selector picks choice `i`; the last choice also stands for all that follow. -/
def picks (selector : Expr) (i last : Nat) : Expr :=
  if i = last then .ge selector (.int i) else .eq selector (.int i)

mutual
/-- Store an expression into a target. -/
def store (env : Symbolic) (target value : Expr) : Symbolic :=
  match target with
  | .signal s => env.insert s value
  | .slice a start stop => env.store a (splice (env.heldBy a) value start stop)
  | .concat ps => env.storeParts ps (value.fit (Expr.concat ps).width) 0
  | .mux _ [c] => env.store c value
  | .mux s cs => env.storeChoices s cs value 0 (cs.length - 1)
  | .literal _ => env
  | .ref _ => env
  | .unary .. => env
  | .binary .. => env
  | .replicate .. => env
termination_by structural target

/-- Store the bits of an expression from `lo` on into parts. -/
def storeParts (env : Symbolic) (parts : List Expr) (value : Expr) (lo : Nat) : Symbolic :=
  match parts with
  | [] => env
  | p :: ps =>
    (env.store p (value.extract lo (lo + p.width))).storeParts ps value (lo + p.width)
termination_by structural parts

/-- Store an expression into the choice that a selector picks, the first one here being `i`. -/
def storeChoices (env : Symbolic) (selector : Expr) (choices : List Expr) (value : Expr)
    (i last : Nat) : Symbolic :=
  match choices with
  | [] => env
  | c :: cs =>
    (merge (picks selector i last) (env.store c value) env).storeChoices selector cs value
      (i + 1) last
termination_by structural choices
end

mutual
/-- Whether storing an expression stops because something has to be fitted that is unfit. -/
def overflows (env : Symbolic) (target value : Expr) : Bool :=
  match target with
  | .slice a start stop =>
    value.unfit (stop - start) || env.overflows a (splice (env.heldBy a) value start stop)
  | .concat ps =>
    let width := (Expr.concat ps).width
    value.unfit width || env.overflowsParts ps (value.fit width) 0
  | .mux _ [c] => env.overflows c value
  | .mux s cs => env.overflowsChoices s cs value 0 (cs.length - 1)
  | _ => false
termination_by structural target

def overflowsParts (env : Symbolic) (parts : List Expr) (value : Expr) (lo : Nat) : Bool :=
  match parts with
  | [] => false
  | p :: ps =>
    let bits := value.extract lo (lo + p.width)
    env.overflows p bits || (env.store p bits).overflowsParts ps value (lo + p.width)
termination_by structural parts

def overflowsChoices (env : Symbolic) (selector : Expr) (choices : List Expr) (value : Expr)
    (i last : Nat) : Bool :=
  match choices with
  | [] => false
  | c :: cs =>
    env.overflows c value ||
      (merge (picks selector i last) (env.store c value) env).overflowsChoices selector cs value
        (i + 1) last
termination_by structural choices
end

end Symbolic

namespace Stmt

mutual
/-- Run a statement on expressions. -/
def fold (env : Symbolic) : Stmt → Symbolic
  | .assign lhs rhs => env.store lhs rhs
  | .branch cond yes no => .merge cond (foldAll env yes) (foldAll env no)
  | .select test arms => foldArms env test arms
  | .nextState _ => env
  | .nextValue .. => env

def foldAll (env : Symbolic) : List Stmt → Symbolic
  | [] => env
  | s :: ss => foldAll (fold env s) ss

def foldArms (env : Symbolic) (test : Expr) : Arms → Symbolic
  | .done => env
  | .otherwise body => foldAll env body
  | .arm key body rest =>
    .merge (.eq test (.literal key)) (foldAll env body) (foldArms env test rest)
end

mutual
/-- Whether running a statement on expressions stops. -/
def overflows (env : Symbolic) : Stmt → Bool
  | .assign lhs rhs => env.overflows lhs rhs
  | .branch _ yes no => overflowsAll env yes || overflowsAll env no
  | .select _ arms => overflowsArms env arms
  | .nextState _ => false
  | .nextValue .. => false

def overflowsAll (env : Symbolic) : List Stmt → Bool
  | [] => false
  | s :: ss => overflows env s || overflowsAll (fold env s) ss

def overflowsArms (env : Symbolic) : Arms → Bool
  | .done => false
  | .otherwise body => overflowsAll env body
  | .arm _ body rest => overflowsAll env body || overflowsArms env rest
end

/-- The final expression of every signal that combinational statements assign. -/
def folded (ss : List Stmt) : Symbolic := foldAll ∅ ss

/-- Whether folding the statements stops on the way; then `folded` means nothing. -/
def stopsFolding (ss : List Stmt) : Bool := overflowsAll ∅ ss

end Stmt

end Gateware
