import Gateware.Simulation.Eval
import Gateware.Stmt.Basic

/-!
# Frames

A frame runs statements against a state and collects what they write. Combinational frames read
their own writes; clocked frames read only the state, so that registers load all at once.
-/
namespace Gateware

/-- The values of the signals that have one. -/
abbrev SimState := OrdMap Signal Int

namespace SimState

/-- The value of a signal; without one it is the reset value. -/
def value (σ : SimState) : Valuation := fun s => σ.getD s s.resetValue

end SimState

/-- A state and the writes made so far. -/
structure Frame where
  state : SimState
  writes : SimState := ∅
  /-- Clocked frames do not read their own writes. -/
  clocked : Bool := false

namespace Frame

/-- A signal's value with the writes taken into account. -/
def latest (f : Frame) : Valuation := fun s => (f.writes.get? s).getD (f.state.value s)

/-- A signal's value as expressions see it. -/
def seen (f : Frame) : Valuation := if f.clocked then f.state.value else f.latest

/-- A run on a frame. What was written before a fault stays written. -/
abbrev Run := ExceptT SimFault (StateM Frame)

/-- The value of an expression. -/
def eval (e : Expr) : Run Int := do
  let f ← get
  e.eval f.seen

mutual
/-- What a target holds, with the writes taken into account. -/
def holds (f : Frame) : Expr → Except SimFault Int
  | .signal s => .ok (f.latest s)
  | .slice a start stop => do
    let v ← f.holds a
    return (Expr.slice a start stop).shape.wrap (field (toBits v a.width) start stop)
  | .concat ps => do
    let bits ← f.holdsParts ps
    return bits
  | .mux s cs => do
    let v ← s.eval f.seen
    f.holdsChoice cs (choiceIndex v cs.length)
  | .literal c => (Expr.literal c).eval f.seen
  | .ref r => (Expr.ref r).eval f.seen
  | .unary op a => (Expr.unary op a).eval f.seen
  | .binary op a b => (Expr.binary op a b).eval f.seen
  | .replicate a n => (Expr.replicate a n).eval f.seen

def holdsParts (f : Frame) : List Expr → Except SimFault Nat
  | [] => .ok 0
  | p :: ps => do
    let v ← f.holds p
    let rest ← f.holdsParts ps
    return toBits v p.width ||| rest <<< p.width

def holdsChoice (f : Frame) : List Expr → Nat → Except SimFault Int
  | [], _ => .ok 0
  | c :: _, 0 => f.holds c
  | _ :: cs, i + 1 => f.holdsChoice cs i
end

/-- A pattern of `width` bits with bits `start` up to `stop` replaced. -/
def replaceField (old new width start stop : Nat) : Nat :=
  let window := mask (stop - start) <<< start
  (old &&& (mask width ^^^ window)) ||| ((new <<< start) &&& window)

/-- Set a signal, cut to its shape. -/
def put (s : Signal) (v : Int) : Run Unit :=
  modify fun f => { f with writes := f.writes.insert s (s.shape.wrap v) }

mutual
/-- Store a number into a target. -/
def write (target : Expr) (v : Int) : Run Unit :=
  match target with
  | .signal s => put s v
  | .slice a start stop => do
    let f ← get
    let old ← f.holds a
    write a (replaceField (toBits old a.width) (toBits v (stop - start)) a.width start stop)
  | .concat ps => writeParts ps (toBits v (Expr.concat ps).width)
  | .mux s cs => do
    let i ← eval s
    writeChoice cs (choiceIndex i cs.length) v
  | .literal c => throw (.unsupported s!"assignment to `{(Expr.literal c).text}`")
  | .ref r => throw (.unsupported s!"assignment to `{r.text}`")
  | .unary op a => throw (.unsupported s!"assignment to `{(Expr.unary op a).text}`")
  | .binary op a b => throw (.unsupported s!"assignment to `{(Expr.binary op a b).text}`")
  | .replicate a n => throw (.unsupported s!"assignment to `{(Expr.replicate a n).text}`")

/-- Store the low bits into the first part and the rest into the others. -/
def writeParts (parts : List Expr) (bits : Nat) : Run Unit :=
  match parts with
  | [] => pure ()
  | p :: ps => do
    write p (bits &&& mask p.width : Nat)
    writeParts ps (bits >>> p.width)

def writeChoice (choices : List Expr) (i : Nat) (v : Int) : Run Unit :=
  match choices, i with
  | [], _ => pure ()
  | c :: _, 0 => write c v
  | _ :: cs, i + 1 => writeChoice cs i v
end

mutual
/-- Run a statement. -/
def exec : Stmt → Run Unit
  | .assign lhs rhs => do
    let v ← eval rhs
    write lhs v
  | .branch cond yes no => do
    let v ← eval cond
    if v = 0 then execAll no else execAll yes
  | .select test arms => do
    let v ← eval test
    execArms test.shape v arms
  | .nextState s => throw (.unsupported s!"`{(Stmt.nextState s).kind}` outside of an FSM")
  | .nextValue t v => throw (.unsupported s!"`{(Stmt.nextValue t v).kind}` outside of an FSM")

def execAll : List Stmt → Run Unit
  | [] => pure ()
  | s :: ss => do
    exec s
    execAll ss

/-- Run the arm that a test value selects. -/
def execArms (shape : Shape) (v : Int) : Arms → Run Unit
  | .done => pure ()
  | .otherwise body => execAll body
  | .arm key body rest =>
    if shape.wrap key.value = v then execAll body else execArms shape v rest
end

end Frame

end Gateware
