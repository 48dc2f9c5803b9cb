import Gateware.Netlist.Domains
import Gateware.Netlist.Resolve

/-!
# Checks before writing

What a netlist must not hold when it is written out, and the domains it lacks.
-/
namespace Gateware.Conversion

/-- The fault of a machine statement outside a state machine. -/
def strayFault? (ss : List Stmt) (place : String) : Option Fault :=
  (Stmt.sugarOf? ss).map fun s => .unloweredFsmStatement s.kind place

/-- No machine statement is left. -/
def checkStrays (n : Netlist) : Except Fault Unit :=
  let found := (strayFault? n.comb "combinational logic").or
    (n.sync.entries.findSome? fun (d, ss) => strayFault? ss s!"sync domain `{d}`")
  match found with
  | some f => .error f
  | none => .ok ()

/-- Every value has a meaning. -/
def checkValues (n : Netlist) : Except Fault Unit :=
  let values := Stmt.exprsOf n.stmts ++ n.cells.values.flatMap fun c => c.ports.map (·.value)
  match values.findSome? Expr.fault? with
  | some f => .error f
  | none => .ok ()

/-- A warning about something of a name. -/
def warning (number : Nat) (message item : String) : Diagnostic :=
  { severity := .warning, code := ⟨.warning, number⟩, message, origin := .ofItem item }

/-- The domains that are used and not declared. -/
def undeclared (n : Netlist) : List String := n.used.toList.filter (· ∉ n.declared)

def createdWarning (d : String) : Diagnostic :=
  { warning 300 s!"clock domain `{d}` was used but never declared; created it" d with
    help := ["declare the domain explicitly to choose its reset behavior"] }

/-- Declare the domains that are missing, if that is allowed. -/
def declareMissing (create : Bool) (n : Netlist) : Build (Netlist × List Diagnostic) := do
  match undeclared n with
  | [] => return (n, [])
  | d :: ds =>
    if !create then throw (.unknownClockDomain d)
    let domains ← (d :: ds).mapM fun d => ClockDomain.fresh d
    return ({ n with domains := n.domains ++ domains }, (d :: ds).map createdWarning)

/-- A warning for every domain that nothing uses. -/
def unusedWarnings (n : Netlist) : List Diagnostic :=
  ((n.domains.map (·.name)).filter (· ∉ n.used)).map fun d =>
    warning 301 s!"clock domain `{d}` is declared but never used" d

end Gateware.Conversion
