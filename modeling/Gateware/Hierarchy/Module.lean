import Gateware.Hierarchy.Context
import Gateware.Netlist.Decorator

/-!
# Modules

A module gathers logic of its own and owns the modules inside it. It may hold a hook that adds to it
while it is being finalized. What hooks there are is left open here.
-/
namespace Gateware

/-- Where a module is in its life. -/
inductive Stage
  | building
  | finalizing
  | finalized
deriving DecidableEq, Repr

def Stage.name : Stage → String
  | building => "Building"
  | finalizing => "Finalizing"
  | finalized => "Finalized"

mutual
/-- A module under construction, with hooks from `H`. -/
structure Module (H : Type) where
  name : String
  /-- Its own logic, and once finalized all of its children's. -/
  netlist : Netlist
  /-- Clocked logic for the default domain. -/
  defaultSync : List Stmt
  children : List (Submodule H)
  hook : Option H
  decorators : List Decorator
  stage : Stage

/-- A module inside another, with or without a name there. -/
structure Submodule (H : Type) where
  name : Option String
  module : Module H
end

/-- Something added to a module. -/
inductive Addition (H : Type)
  | comb (ss : List Stmt)
  | sync (domain : String) (ss : List Stmt)
  | defaultSync (ss : List Stmt)
  | cell (c : Cell)
  | domain (d : ClockDomain)
  | netlist (n : Netlist)
  | child (name : Option String) (m : Module H)
  | decorate (d : Decorator)
  | hook (h : H)
  /-- An addition that could not be built. -/
  | fault (f : Fault)

variable {H : Type}

namespace Module

def empty (name : String) : Module H :=
  { name, netlist := {}, defaultSync := [], children := [], hook := none, decorators := []
    stage := .building }

instance : Inhabited (Module H) := ⟨empty ""⟩

def ofNetlist (name : String) (netlist : Netlist) : Module H := { empty name with netlist }

def childNames (m : Module H) : List (Option String) := m.children.map (·.name)

/-- Put something into a module that takes it. Names of children differ. -/
def extend (m : Module H) : Addition H → Except Fault (Module H)
  | .comb ss => .ok { m with netlist := m.netlist.addComb ss }
  | .sync domain ss => .ok { m with netlist := m.netlist.addSync domain ss }
  | .defaultSync ss => .ok { m with defaultSync := m.defaultSync ++ ss }
  | .cell c => .ok { m with netlist := m.netlist.addCell c }
  | .domain d => .ok { m with netlist := m.netlist.addDomain d }
  | .netlist n => .ok { m with netlist := m.netlist ++ n }
  | .child name child =>
    match name with
    | some n =>
      if some n ∈ m.childNames then .error (.duplicateSubmodule m.name n)
      else .ok { m with children := m.children ++ [⟨name, child⟩] }
    | none => .ok { m with children := m.children ++ [⟨name, child⟩] }
  | .decorate d => .ok { m with decorators := m.decorators ++ [d] }
  | .hook h => .ok { m with hook := some h }
  | .fault f => .error f

end Module

/-- The additions that a finalized module no longer takes, in words. -/
def Addition.sealed? : Addition H → Option String
  | comb _ => some "add combinational logic"
  | sync .. => some "add synchronous logic"
  | defaultSync _ => some "add synchronous logic"
  | cell _ => some "add a special"
  | domain _ => some "add a clock domain"
  | netlist _ => some "add a fragment"
  | child .. => some "add a submodule"
  | decorate _ => none
  | hook _ => none
  | fault _ => none

/-- Why something cannot be added. -/
inductive Refusal
  /-- The module is finished. -/
  | finished (what module : String)
  | fault (f : Fault)
deriving DecidableEq, Repr

def Refusal.message : Refusal → String
  | finished what module => s!"cannot {what} on finalized module `{module}`"
  | fault f => f.message

/-- Put something into a module unless it is finished. -/
def Module.add (m : Module H) (a : Addition H) : Except Refusal (Module H) :=
  match a.sealed? with
  | some what =>
    if m.stage = .finalized then .error (.finished what m.name)
    else (m.extend a).mapError .fault
  | none => (m.extend a).mapError .fault

end Gateware
