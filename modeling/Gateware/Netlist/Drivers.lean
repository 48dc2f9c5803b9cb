import Gateware.Netlist.Basic

/-!
# Drivers

Every signal has at most one driver: the combinational statements together, the statements of one
clock domain together, or one cell.
-/
namespace Gateware

/-- Who drives a signal. -/
inductive Driver
  | comb
  | sync (domain : String)
  | cell (description : String)
deriving DecidableEq, Repr

namespace Driver

def text : Driver → String
  | comb => "comb"
  | sync domain => s!"sync domain `{domain}`"
  | cell description => s!"special {description}"

/-- Whether two statements of the driver may assign one signal. -/
def shares : Driver → Bool
  | cell _ => false
  | _ => true

end Driver

namespace Netlist

/-- The signals a cell drives. -/
def cellTargets (c : Cell) : OrdSet Signal := .ofList (c.outputs.flatMap fun p => p.value.drives)

/-- The signals that statements or cells drive. -/
def driven (n : Netlist) : OrdSet Signal :=
  .ofList ((Stmt.targetsOf n.stmts).flatMap Expr.drives
    ++ n.cells.values.flatMap fun c => (cellTargets c).toList)

/-- Enter `who` as the driver of a signal, unless another one is. -/
def claim (who : Driver) (owners : OrdMap Signal Driver) (s : Signal) :
    Except Fault (OrdMap Signal Driver) :=
  match owners.get? s with
  | none => .ok (owners.insert s who)
  | some first =>
    if first = who ∧ who.shares then .ok owners
    else .error (.driverConflict s.name first.text who.text)

/-- Enter the driver of the signals that statements assign, once their targets can be driven. -/
def claimStmts (who : Driver) (owners : OrdMap Signal Driver) (ss : List Stmt) :
    Except Fault (OrdMap Signal Driver) :=
  match Stmt.targetFault? ss with
  | some fault => .error fault
  | none => (Stmt.assigned ss).toList.foldlM (claim who) owners

/-- The driver of every driven signal, or the first signal with two. -/
def drivers (n : Netlist) : Except Fault (OrdMap Signal Driver) := do
  let owners ← claimStmts .comb ∅ n.comb
  let owners ← n.sync.entries.foldlM (fun o e => claimStmts (.sync e.1) o e.2) owners
  n.cells.values.foldlM
    (fun o c => (cellTargets c).toList.foldlM (claim (.cell c.describe)) o) owners

/-- Every signal has at most one driver, and every target can be driven. -/
def checkDrivers (n : Netlist) : Except Fault Unit := n.drivers.map fun _ => ()

end Netlist

end Gateware
