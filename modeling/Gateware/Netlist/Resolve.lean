import Gateware.Netlist.Basic

/-!
# Resolving domain references

Once all clock domains are declared, mentions of their clocks and resets become plain signals.
-/
namespace Gateware

namespace DomainRef

/-- The signal that a reference stands for. A reset that may be missing stands for a zero then. -/
def resolve (domains : List ClockDomain) : DomainRef → Except Fault Expr
  | clock d =>
    match domains.find? (·.name = d) with
    | some cd => .ok cd.clk
    | none => .error (.unknownClockDomain d)
  | reset d orZero =>
    match domains.find? (·.name = d) with
    | none => .error (.unknownClockDomain d)
    | some cd =>
      match cd.rst with
      | some rst => .ok rst
      | none => if orZero then .ok (.sized 0 (.unsigned 1)) else .error (.resetLessDomain d)

/-- The fault of a reference that stands for nothing. -/
def fault? (domains : List ClockDomain) (r : DomainRef) : Option Fault :=
  match r.resolve domains with
  | .error f => some f
  | .ok _ => none

end DomainRef

namespace Expr

/-- Put signals in place of references; one that stands for nothing reads as zero. -/
def resolved (domains : List ClockDomain) (e : Expr) : Expr :=
  e.bindRefs fun r =>
    match r.resolve domains with
    | .ok e => e
    | .error _ => .sized 0 (.unsigned 1)

/-- The first reference that stands for nothing, with the fault. -/
def dangling? (domains : List ClockDomain) (es : List Expr) : Option (DomainRef × Fault) :=
  (es.flatMap refs).findSome? fun r => (r.fault? domains).map (r, ·)

end Expr

namespace Netlist

/-- Resolve all references by the netlist's own domains. -/
def resolve (n : Netlist) : Except Fault Netlist :=
  let es := Stmt.exprsOf n.stmts ++ n.cells.values.flatMap (·.kind.exprs)
  match Expr.dangling? n.domains es with
  | some (_, fault) => .error fault
  | none => .ok (n.mapExprs (Expr.resolved n.domains))

end Netlist

end Gateware
