import Gateware.Signal

/-!
# Clock domains

A clock domain is a named group of registers with one clock and at most one reset. Designs may name
a domain's clock or reset before anyone has declared the domain; such a reference is resolved late.
-/
namespace Gateware

/-- A named clock with at most one reset. -/
structure ClockDomain where
  name : String
  clk : Signal
  rst : Option Signal
  asyncReset : Bool
deriving DecidableEq, Repr

namespace ClockDomain

/-- Declare a domain with a reset that acts on the clock edge. -/
def fresh (name : String) : StateM Supply ClockDomain := do
  let clk ← Signal.fresh s!"{name}_clk" (.unsigned 1)
  let rst ← Signal.fresh s!"{name}_rst" (.unsigned 1)
  return { name, clk, rst := some rst, asyncReset := false }

/-- Declare a domain without a reset. -/
def freshResetLess (name : String) : StateM Supply ClockDomain := do
  let clk ← Signal.fresh s!"{name}_clk" (.unsigned 1)
  return { name, clk, rst := none, asyncReset := false }

/-- The clock and, if there is one, the reset. -/
def signals (d : ClockDomain) : List Signal := d.clk :: d.rst.toList

end ClockDomain

/-- A mention of a domain's clock or reset by the domain's name. -/
inductive DomainRef
  | clock (domain : String)
  /-- With `orZero`, a domain without reset reads as a constant zero. -/
  | reset (domain : String) (orZero : Bool)
deriving DecidableEq, Repr

namespace DomainRef

def domain : DomainRef → String
  | clock d => d
  | reset d _ => d

/-- The same mention of another domain. -/
def rename (f : String → String) : DomainRef → DomainRef
  | clock d => clock (f d)
  | reset d z => reset (f d) z

def text : DomainRef → String
  | clock d => s!"ClockSignal({d})"
  | reset d _ => s!"ResetSignal({d})"

end DomainRef

end Gateware
