import Gateware.Config.Basic
import Gateware.Fault

/-!
# Elaboration contexts

What an elaboration carries along: the settings it needs, the modules it is inside of, the supply of
identities and the log of warnings.
-/
namespace Gateware

structure Context where
  defaultDomain : String
  maxDepth : Nat
  /-- The modules being finalized, outermost first. -/
  path : List String := []
  log : Log := {}
  supply : Supply := {}

/-- An elaboration step. The context keeps what happened before a fault. -/
abbrev Elaboration := ExceptT Fault (StateM Context)

namespace Context

def ofConfig (c : Config.Elaborate) (supply : Supply) : Context :=
  { defaultDomain := c.defaultDomain, maxDepth := c.maxDepth, supply }

def depth (c : Context) : Nat := c.path.length

/-- For instance `top.uart`. -/
def pathText (c : Context) : String := ".".intercalate c.path

/-- The module that the context is inside of. -/
def origin (c : Context) : Origin := { path := c.path }

/-- The context inside a module. -/
def inside (c : Context) (name : String) : Context := { c with path := c.path ++ [name] }

/-- The fault of going into a module when that is too deep. -/
def tooDeep (c : Context) (name : String) : Fault :=
  .hierarchyTooDeep (c.inside name).pathText c.maxDepth

/-- Go into a module, unless that is too deep. -/
def enter (c : Context) (name : String) : Except Fault Context :=
  if c.maxDepth ≤ c.depth then .error (c.tooDeep name) else .ok (c.inside name)

/-- Leave the innermost module. -/
def exit (c : Context) : Context := { c with path := c.path.dropLast }

def emit (c : Context) (ds : List Diagnostic) : Context := { c with log := ds.foldl Log.emit c.log }

end Context

/-- Let a step that only draws identities draw them from the context. -/
def Elaboration.build {α : Type} (act : Build α) : Elaboration α := fun c =>
  let (result, supply) := act.run.run c.supply
  (result, { c with supply })

end Gateware
