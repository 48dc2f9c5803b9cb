import Gateware.Stmt.Sets

/-!
# State machines

A machine collects statements state by state. In them, moves name the next state and registered
loads take effect on the clock edge. States are numbered in the order they are first mentioned.
-/
namespace Gateware

/-- The moments in the life of a state that can be watched. -/
inductive Machine.Event
  | beforeEntering
  | beforeLeaving
  | afterEntering
  | afterLeaving
deriving DecidableEq, Repr

def Machine.Event.label : Event → String
  | beforeEntering => "before_entering"
  | beforeLeaving => "before_leaving"
  | afterEntering => "after_entering"
  | afterLeaving => "after_leaving"

/-- A state machine under construction. -/
structure Machine where
  name : String
  /-- The clock domain, if it is not the default one. -/
  domain : Option String := none
  /-- The state after reset, if it is not the first one. -/
  resetState : Option String := none
  /-- The states in order, with what is done in each. -/
  bodies : List (String × List Stmt) := []
  /-- Names that stand for other states. -/
  aliases : OrdMap String String := ∅
  /-- The number of states made up so far. -/
  anonymous : Nat := 0
  /-- The signals that watch events, by state. -/
  events : Machine.Event → OrdMap String Signal := fun _ => ∅

namespace Machine

/-- The states in order of their numbers. -/
def states (m : Machine) : List String := m.bodies.map (·.1)

/-- Mention a state. -/
def declare (m : Machine) (state : String) : Machine :=
  if state ∈ m.states then m else { m with bodies := m.bodies ++ [(state, [])] }

/-- Do more in a state. -/
def act (m : Machine) (state : String) (ss : List Stmt) : Machine :=
  let m := m.declare state
  { m with bodies := m.bodies.map fun b => if b.1 = state then (b.1, b.2 ++ ss) else b }

/-- Pass from `state` to `target` by way of `between` states made up for it. -/
def passage (m : Machine) (state target : String) : (between : Nat) → Machine
  | 0 => m.act state [.nextState target]
  | between + 1 =>
    let next := s!"{m.name}${m.anonymous + 1}"
    let m := { m with anonymous := m.anonymous + 1 }
    (m.act state [.nextState next]).passage next target between

/-- Let a move to `state` arrive at `target` that many cycles later; without delay the one is
another name of the other. -/
def delayed (m : Machine) (state target : String) : (delay : Nat) → Machine
  | 0 => { m with aliases := m.aliases.insert state target }
  | delay + 1 => m.passage state target delay

/-- A new signal that is set while the machine is in a state. -/
def ongoing (m : Machine) (state : String) : StateM Supply (Signal × Machine) := do
  let s ← Signal.fresh s!"{m.name}_ongoing_{state}" (.unsigned 1)
  return (s, m.act state [.assign s (.int 1)])

/-- The signal that watches an event of a state. -/
def watch (m : Machine) (event : Event) (state : String) : StateM Supply (Signal × Machine) := do
  let m := m.declare state
  match (m.events event).get? state with
  | some s => return (s, m)
  | none =>
    let s ← Signal.fresh s!"{m.name}_{event.label}_{state}" (.unsigned 1)
    let events := fun e => if e = event then (m.events e).insert state s else m.events e
    return (s, { m with events })

/-- Follow up to `steps` aliases. -/
def follow (aliases : OrdMap String String) (state : String) : (steps : Nat) → String
  | 0 => state
  | steps + 1 =>
    match aliases.get? state with
    | some target => follow aliases target steps
    | none => state

/-- The state that a name stands for. -/
def resolve (m : Machine) (state : String) : String :=
  follow m.aliases state (m.aliases.entries.length + 1)

end Machine

end Gateware
