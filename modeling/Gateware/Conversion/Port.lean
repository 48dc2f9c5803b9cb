import Gateware.Conversion.Check
import Gateware.Verilog.Module

/-!
# Ports and what they leave open

The direction of the requested ports, and warnings about signals that nothing drives and values that
do not fit.
-/
namespace Gateware.Conversion

/-- The signals that cells use as pads. -/
def pads (n : Netlist) : OrdSet Signal :=
  .ofList (n.cells.values.flatMap fun c =>
    (c.ports.filter (·.direction = .inout)).flatMap fun p => p.value.drives)

/-- A pad is an inout, a driven signal an output, anything else an input. -/
def directionOf (pads driven : OrdSet Signal) (s : Signal) : Direction :=
  if s ∈ pads then .inout else if s ∈ driven then .output else .input

/-- The requested ports, each once, then the clocks and resets that nothing drives. -/
def ports (n : Netlist) (ios : List Signal) : List Verilog.Port :=
  let driven := n.driven
  let pads := pads n
  let asked := ios.eraseDups
  let clocks := ((n.domains.flatMap ClockDomain.signals).filter fun s =>
    s ∉ driven ∧ s ∉ asked).eraseDups
  asked.map (fun s => ⟨s, directionOf pads driven s⟩) ++ clocks.map fun s => ⟨s, .input⟩

/-- The signals that statements and cells read. -/
def readSignals (n : Netlist) : OrdSet Signal :=
  .ofList (Stmt.sourcesOf n.stmts ++ n.cells.values.flatMap fun c =>
    (c.ports.filter (·.direction = .input)).flatMap fun p => p.value.mentions)

/-- A warning for every signal that is read, not driven and no port. -/
def undrivenWarnings (n : Netlist) (ports : List Verilog.Port) : List Diagnostic :=
  let driven := n.driven
  let listed := ports.map (·.signal)
  ((readSignals n).toList.filter fun s => s ∉ driven ∧ s ∉ listed).map fun s =>
    warning 303 s!"signal `{s.name}` is read but never driven; it stays at its reset value" s.name

/-- A sum or difference of operands that fit loses nothing but its carry. -/
def losesOnlyCarry (rhs : Expr) (width : Nat) : Bool :=
  match rhs with
  | .binary .add a b => a.width ≤ width && b.width ≤ width
  | .binary .sub a b => a.width ≤ width && b.width ≤ width
  | _ => false

/-- The warning that an assignment drops bits. -/
def truncation? : Stmt → Option Diagnostic
  | .assign lhs rhs =>
    if lhs.width < rhs.width ∧ !losesOnlyCarry rhs lhs.width then
      some (warning 304
        (s!"assignment to `{lhs.text}` ({lhs.width} bits) truncates " ++
          s!"`{rhs.text}` ({rhs.width} bits)")
        lhs.text)
    else none
  | _ => none

def truncationWarnings (n : Netlist) : List Diagnostic :=
  (Stmt.leavesOf n.stmts).filterMap truncation?

end Gateware.Conversion
