import Gateware.Hierarchy.Module
import Gateware.Machine.Compile

/-!
# Finalizing a module tree

Children are finalized first, then the module's hook runs, then whatever children it added. Clock
domains that several contributors declare are renamed in the named children that declare them; then
the children's netlists follow the module's own and its decorators apply to the whole.
-/
namespace Gateware

namespace Module

variable {H : Type}

/-- A step in finalizing a module, which the step may change even when it fails. -/
abbrev Finalizing (H : Type) := ExceptT Fault (StateT (Module H) (StateM Context))

/-- A way to finalize a module, which comes back also when this fails. -/
abbrev Finalizer (H : Type) := Module H → StateM Context (Except Fault Unit × Module H)

/-- Run a step of the elaboration. -/
def lift {α : Type} (act : Elaboration α) : Finalizing H α := ExceptT.mk (StateT.lift act)

/-- Finalize the children in order with `run`; those that are finalized already stay. A named child
takes the name it has here. -/
def finalizeAll (run : Finalizer H) :
    List (Submodule H) → StateM Context (Except Fault Unit × List (Submodule H))
  | [] => pure (.ok (), [])
  | c :: cs =>
    if c.module.stage = .finalized then do
      let (result, cs) ← finalizeAll run cs
      pure (result, c :: cs)
    else do
      let (result, module) ← run { c.module with name := c.name.getD c.module.name }
      match result with
      | .error f => pure (.error f, { c with module } :: cs)
      | .ok _ =>
        let (result, cs) ← finalizeAll run cs
        pure (result, { c with module } :: cs)

def finalizeChildren (run : Finalizer H) : Finalizing H Unit := do
  let m ← get
  let (result, children) ← lift (ExceptT.lift (finalizeAll run m.children))
  set { m with children }
  result

/-- Put something into the module. -/
def grow (a : Addition H) : Finalizing H Unit := do
  let m ← (← get).extend a
  set m

end Module

/-- What each hook does once a module's children are finalized. It may look at the module and at the
context and change both. -/
class Hooks (H : Type) where
  run : H → Module.Finalizing H Unit

namespace Module

variable {H : Type}

/-- The domains that more than one of the module and its children declare, by name. -/
def collisions (own : Netlist) (children : List (Submodule H)) : List String :=
  let declared := own.declared :: children.map (·.module.netlist.declared)
  (OrdSet.unionOver declared id).toList.filter fun d => 1 < declared.countP (d ∈ ·)

/-- Rename a domain in a child that declares it; one without a name cannot be told apart. -/
def separate (path domain : String) (c : Submodule H) : Except Fault (Submodule H) :=
  match c.module.netlist.domain? domain, c.name with
  | none, _ => .ok c
  | some _, none => .error (.anonymousDomainCollision path domain)
  | some _, some name =>
    .ok { c with module := { c.module with
      netlist := c.module.netlist.renameDomain domain s!"{name}_{domain}" } }

/-- Rename all colliding domains, one after the other. -/
def separateAll (path : String) (own : Netlist) (children : List (Submodule H)) :
    Except Fault (List (Submodule H)) :=
  (collisions own children).foldlM (fun cs d => cs.mapM (separate path d)) children

/-- Give the clocked logic without a domain the default one. -/
def placeDefault (domain : String) (m : Module H) : Module H :=
  if m.defaultSync.isEmpty then m
  else { m with netlist := m.netlist.addSync domain m.defaultSync, defaultSync := [] }

/-- Take over the children's netlists and apply the decorators. -/
def assemble (m : Module H) (children : List (Submodule H)) : Module H :=
  let whole := children.foldl (fun n c => n ++ c.module.netlist) m.netlist
  { m with netlist := m.decorators.foldl Decorator.apply whole, children := [], decorators := [] }

variable [Hooks H]

/-- Finalize a module that has been entered, its children with `run`. -/
def finalizeWith (run : Finalizer H) : Finalizing H Unit := do
  modify fun m => { m with stage := .finalizing }
  finalizeChildren run
  let m ← get
  if let some hook := m.hook then
    set { m with hook := none }
    Hooks.run hook
    finalizeChildren run
  let ctx ← lift get
  modify (placeDefault ctx.defaultDomain)
  let m ← get
  let children ← separateAll ctx.pathText m.netlist m.children
  modify (assemble · children)
  (← get).netlist.checkDomains
  modify fun m => { m with stage := .finalized }

/-- Finalize a module with room for `room` levels of hierarchy, itself included. -/
def finalizeWithin : (room : Nat) → Finalizer H
  | room, m => do
    let ctx ← get
    if m.stage ≠ .building then
      let path := if ctx.pathText.isEmpty then m.name else s!"{ctx.pathText}.{m.name}"
      pure (.error (.alreadyFinalized path), m)
    else
      match room with
      | 0 => pure (.error (ctx.tooDeep m.name), m)
      | room + 1 => do
        set (ctx.inside m.name)
        let result ← (finalizeWith (finalizeWithin room)).run.run m
        modify Context.exit
        pure result

/-- Finalize a module tree. -/
def finalize (m : Module H) : StateM Context (Except Fault Unit × Module H) := do
  let ctx ← get
  finalizeWithin (ctx.maxDepth - ctx.depth) m

/-- The netlist of a module, finalizing it if need be. -/
def toNetlist (m : Module H) : Elaboration Netlist := do
  if m.stage = .finalized then return m.netlist
  let (result, m) ← ExceptT.lift m.finalize
  result
  return m.netlist

end Module

/-- The hooks that designs are built with. -/
inductive Hook
  | extend (additions : List (Addition Hook))
  /-- Add the logic of a state machine. -/
  | machine (m : Machine)
  /-- Add a child `again` with this hook. -/
  | regenerate

namespace Module

/-- The logic of a state machine; its warnings go to the log. -/
def compile (machine : Machine) : Elaboration Machine.Compiled := do
  let ctx ← get
  let compiled ← Elaboration.build (machine.compile ctx.defaultDomain)
  modify fun ctx => ctx.emit (machine.warnings compiled ctx.path)
  return compiled

/-- A module that turns into a state machine's logic when it is finalized. -/
def ofMachine (m : Machine) : Module Hook := { empty m.name with hook := some (.machine m) }

end Module

open Module in
def Hook.run : Hook → Finalizing Hook Unit
  | extend additions => additions.forM grow
  | machine m => do
    let compiled ← lift (compile m)
    grow (.netlist compiled.netlist)
  | regenerate => grow (.child (some "again") { empty "again" with hook := some regenerate })

instance : Hooks Hook := ⟨Hook.run⟩

/-- What can be converted or simulated: a module tree, or a netlist taken as it is. -/
inductive Design
  | module (m : Module Hook)
  | netlist (n : Netlist)

def Design.elaborate : Design → Elaboration Netlist
  | module m => m.toNetlist
  | netlist n => pure n

end Gateware
