import Gateware.Lowering.Basic

/-!
# Synchronizers from plain registers

Values cross into a domain through a chain of registers. A reset is entered at once and left two
clock edges after its source goes away.
-/
namespace Gateware.Lowering

/-- The registers of a chain, first to last. -/
def chain (m : MultiReg) : StateM Supply (List Signal) :=
  (List.range m.stages).mapM fun i => do
    let s ← Signal.fresh s!"{m.output.name}_multireg{i}" m.input.shape
    return (s.withReset m.output.reset).withoutReset

/-- Each register loads the one before it, the first one the source. -/
def shift : (source : Expr) → List Signal → List Stmt
  | _, [] => []
  | source, r :: rs => .assign r source :: shift r rs

def multiReg : Lowering where
  name := "generic_multireg"
  lower c := do
    let .multiReg m := c.kind | throw (cannot "generic_multireg" c)
    if m.stages = 0 then
      throw (.unsupportedSpecial c.describe "a synchronizer needs at least one stage")
    let regs ← chain m
    let last : Expr := (regs.getLast?.map Expr.signal).getD m.input
    return (({} : Netlist).addSync m.odomain (shift m.input regs)).addComb [.assign m.output last]

def resetSync : Lowering where
  name := "generic_async_reset_synchronizer"
  lower c := do
    let .resetSync r := c.kind | throw (cannot "generic_async_reset_synchronizer" c)
    let derived ← ClockDomain.fresh s!"{r.domain}_arst"
    let derived := { derived with asyncReset := true }
    let first ← (·.withReset 1) <$> Signal.fresh s!"{r.domain}_rst_meta" (.unsigned 1)
    let second ← (·.withReset 1) <$> Signal.fresh s!"{r.domain}_rst_sync" (.unsigned 1)
    return {
      comb := .assign derived.clk (.clock r.domain)
        :: derived.rst.toList.map (fun rst => .assign rst r.asyncReset)
        ++ [.assign (.reset r.domain) second]
      sync := .ofList [(derived.name, [.assign first (.int 0), .assign second first])]
      domains := [derived] }

end Gateware.Lowering
