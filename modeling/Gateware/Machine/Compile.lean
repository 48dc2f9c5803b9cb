import Gateware.Machine.Basic
import Gateware.Netlist.Basic

/-!
# State machines as logic

A machine becomes a state register, a selection over its states that finds the next one, and a
register with an enable for every registered load. The reset state doubles as the body for unused
codes.
-/
namespace Gateware

namespace Machine

def unknown (m : Machine) (state : String) : Fault := .unknownFsmState m.name state

/-- The number of a state. -/
def code? (m : Machine) (state : String) : Option Nat := m.states.findIdx? (· = state)

/-- The shape of the state register. -/
def shape (m : Machine) : Shape := .unsigned (bitsFor (m.bodies.length - 1 : Nat) false)

/-- A state's number as it stands in the state register. -/
def coded (m : Machine) (code : Nat) : Expr := .sized code m.shape

/-- The state after reset and its number. -/
def initial (m : Machine) : Except Fault (String × Nat) := do
  let state ←
    match m.resetState, m.states with
    | some s, _ => .ok (m.resolve s)
    | none, s :: _ => .ok s
    | none, [] => .error (m.unknown "<reset>")
  match m.code? state with
  | some code => return (state, code)
  | none => throw (m.unknown state)

/-- The moves, in order. -/
def moves (m : Machine) : List String :=
  (Stmt.leavesOf (m.bodies.flatMap (·.2))).filterMap fun
    | .nextState s => some s
    | _ => none

/-- The targets of registered loads, each once, in order. -/
def loads (m : Machine) : List Expr :=
  ((Stmt.leavesOf (m.bodies.flatMap (·.2))).filterMap fun
    | .nextValue target _ => some target
    | _ => none).eraseDups

/-- The two signals behind a registered load: whether to load and what. -/
structure Load where
  target : Expr
  enable : Signal
  next : Signal

/-- Create the signals of the load at a place of the list. -/
def Load.fresh (machine : String) (target : Expr) (index : Nat) : StateM Supply Load := do
  let stem :=
    match target.signal? with
    | some s => s.name
    | none => s!"{machine}_reg{index}"
  let enable ← Signal.fresh s!"{stem}_fsm_ce" (.unsigned 1)
  let next ← Signal.fresh s!"{stem}_fsm_next" target.shape
  return { target, enable, next }

/-- Write moves and registered loads as plain assignments. -/
def plain (m : Machine) (nextState : Signal) (loads : List Load) : Stmt → Except Fault (List Stmt)
  | .nextState s =>
    match m.code? (m.resolve s) with
    | some code => .ok [.assign nextState (m.coded code)]
    | none => .error (m.unknown s)
  | .nextValue target value =>
    match loads.find? (·.target = target) with
    | some l => .ok [.assign l.next value, .assign l.enable (.int 1)]
    | none => .ok []
  | s => .ok [s]

/-- What is done in each state, in plain assignments. -/
def plainBodies (m : Machine) (nextState : Signal) (loads : List Load) :
    Except Fault (List (String × List Stmt)) :=
  m.bodies.mapM fun (s, body) => do
    let body ← Stmt.replaceOf (m.plain nextState loads) body
    return (s, body)

/-- A machine as logic. -/
structure Compiled where
  netlist : Netlist
  state : Signal
  nextState : Signal
  resetCode : Nat
  /-- The states that no move leads to, the reset state aside. -/
  unreached : List String

/-- The selection that finds the next state. -/
def selection (m : Machine) (state nextState : Signal) (reset : String × Nat)
    (bodies : List (String × List Stmt)) : List Stmt :=
  let numbered := bodies.zipIdx
  let others := numbered.filter fun (b, _) => b.1 ≠ reset.1
  let own := numbered.filter fun (b, _) => b.1 = reset.1
  [.assign nextState state,
    .select state (.ofList (others.map fun (b, code) => (.sized code m.shape, b.2))
      (some (.assign nextState (m.coded reset.2) :: own.flatMap (·.1.2))))]

/-- What the machine is about to enter or leave. -/
structure Edges where
  machine : Machine
  state : Signal
  nextState : Signal
  reset : String
  /-- Set in the first cycle only. -/
  start : Option Signal

namespace Edges

def isIn (e : Edges) (s : String) : Expr :=
  .eq e.state (e.machine.coded ((e.machine.code? s).getD 0))

def goesTo (e : Edges) (s : String) : Expr :=
  .eq e.nextState (e.machine.coded ((e.machine.code? s).getD 0))

/-- Set in the cycle before a state is entered; the reset state is also entered by starting. -/
def entering (e : Edges) (s : String) : Expr :=
  let edge := Expr.binary .and (.unary .invert (e.isIn s)) (e.goesTo s)
  match e.start with
  | some start => if s = e.reset then .binary .or edge start else edge
  | none => edge

/-- Set in the last cycle of a state. -/
def leaving (e : Edges) (s : String) : Expr :=
  .binary .and (e.isIn s) (.unary .invert (e.goesTo s))

/-- Drive the signals that watch an event. -/
def drive (e : Edges) (event : Event) (edge : String → Expr) : List Stmt :=
  (e.machine.events event).entries.map fun (s, watcher) =>
    .assign watcher (edge (e.machine.resolve s))

end Edges

/-- Write the machine as logic, clocked by its own domain or else `defaultDomain`. -/
def compile (m : Machine) (defaultDomain : String) : Build Compiled := do
  let reset ← m.initial
  let state ← (·.withReset reset.2) <$> Signal.fresh s!"{m.name}_state" m.shape
  let nextState ← Signal.fresh s!"{m.name}_next_state" m.shape
  let loads ← m.loads.zipIdx.mapM fun (target, i) => Load.fresh m.name target i
  let bodies ← m.plainBodies nextState loads
  let watched := (m.events .beforeEntering).contains reset.1 ||
    (m.events .afterEntering).contains reset.1
  let start ←
    if watched then do
      let s ← Signal.fresh s!"{m.name}_init" (.unsigned 1)
      pure (some (s.withReset 1))
    else pure none
  let edges : Edges := { machine := m, state, nextState, reset := reset.1, start }
  let comb := m.selection state nextState reset bodies
    ++ edges.drive .beforeEntering edges.entering ++ edges.drive .beforeLeaving edges.leaving
  let sync : List Stmt := [.assign state nextState]
    ++ loads.map (fun l => .branch l.enable [.assign l.target l.next] [])
    ++ start.toList.map (fun s => .assign s (.int 0))
    ++ edges.drive .afterEntering edges.entering ++ edges.drive .afterLeaving edges.leaving
  let reached := m.moves.map m.resolve
  return {
    netlist := (({} : Netlist).addComb comb).addSync (m.domain.getD defaultDomain) sync
    state, nextState, resetCode := reset.2
    unreached := m.states.filter fun s => s ≠ reset.1 ∧ s ∉ reached }

/-- A warning for every state that is never reached. -/
def warnings (m : Machine) (c : Compiled) (path : List String) : List Diagnostic :=
  c.unreached.map fun s =>
    { severity := .warning, code := ⟨.warning, 302⟩
      message := s!"state `{s}` of state machine `{m.name}` is unreachable"
      origin := { path, item := some s }
      help := ["add a `NextState` transition to it or remove it"] }

end Machine

end Gateware
