import Gateware.Netlist.Drivers
import Gateware.Verilog.Cell
import Gateware.Verilog.Statement

/-!
# The module as text

A netlist without references, abstract cells and machine statements is written as one module: ports,
declarations, temporaries, combinational assignments, a block for every clock domain, and cells.
-/
namespace Gateware.Verilog

open Layout (block)

/-- A port of the written module. -/
structure Port where
  signal : Signal
  direction : Direction
deriving DecidableEq, Repr

/-- Every signal that a netlist mentions. -/
def mentioned (n : Netlist) : OrdSet Signal :=
  .ofList ((Stmt.exprsOf n.stmts).flatMap Expr.mentions
    ++ n.cells.values.flatMap (fun c => c.ports.flatMap fun p => p.value.mentions)
    ++ n.domains.flatMap ClockDomain.signals)

/-- Clocks and resets are called after the domain they are in. -/
def hints (n : Netlist) : OrdMap Signal String :=
  .ofList (n.domains.flatMap fun d =>
    (d.clk, s!"{d.name}_clk") :: d.rst.toList.map fun rst => (rst, s!"{d.name}_rst"))

/-- Why writing stops. -/
inductive Halt
  | fault (f : Fault)
  /-- A number went below zero. -/
  | overflow
deriving DecidableEq, Repr

def Halt.overflowText : String := "attempt to subtract with overflow"

/-- The written module. -/
structure Written where
  source : String
  files : List DataFile
  names : Names

/-- The line of a port. -/
def portText (registers : OrdSet Signal) (names : Names) (p : Port) : String :=
  let direction :=
    match p.direction with
    | .input => "input"
    | .output => if p.signal ∈ registers then "output reg" else "output"
    | .inout => "inout"
  s!"{direction} {shapeText p.signal.shape}{names.name p.signal}"

/-- The declaration of a signal. Registers start at their reset values, unless starting values are
left out; what nothing drives stays at its reset value. -/
def declaration (asic : Bool) (registers driven : OrdSet Signal) (names : Names) (s : Signal) :
    Layout :=
  let what := s!"{shapeText s.shape}{names.name s}"
  if s ∈ registers then
    if asic then .line s!"reg {what};" else .line s!"reg {what} = {resetText s};"
  else if s ∈ driven then .line s!"wire {what};"
  else .line s!"wire {what} = {resetText s};"

/-- The combinational assignments, one for each signal, in the given order. -/
def combText (n : Netlist) (order : List Signal) : Print (List Layout) := do
  watch (Stmt.stopsFolding n.comb)
  let folded := Stmt.folded n.comb
  let lines ← order.mapM fun s =>
    match folded.get? s with
    | none => pure []
    | some value => do
      let rhs ← assigned value s.width
      let name ← nameOf s
      pure [Layout.line s!"assign {name} = {rhs};"]
  return lines.flatten

def syncText (n : Netlist) : Emit (List Layout) := do
  let blocks ← (n.sync.entries.filter (!·.2.isEmpty)).mapM fun (domain, ss) => do
    let d ← domainNamed n.domains domain
    clockedBlock d ss
  return blocks.flatten

def cellsText (n : Netlist) (style : MemoryInit) : Emit (List Layout) := do
  let cells ← n.cells.values.mapM (cellText n.domains style)
  return cells.flatten

/-- The signals in the order they are named: the ports, then all others by age. -/
def namingOrder (n : Netlist) (ports : List Port) : List Signal :=
  let listed := ports.map (·.signal)
  listed ++ (mentioned n).toList.filter (· ∉ listed)

/-- Write a netlist as a module with the given ports. -/
def write (n : Netlist) (ports : List Port) (config : Config.Codegen) : Except Halt Written := do
  let order := namingOrder n ports
  let hints := hints n
  let (names, used) := Names.assign ∅ (order.map fun s => (s, hints.getD s s.name))
  let registers : OrdSet Signal := Stmt.assigned n.sync.values.flatten
  let driven := n.driven
  let listed := ports.map (·.signal)
  let header := (if config.header then [Layout.line "/* Machine-generated using kiln */"] else [])
    ++ block s!"module {config.name}(" (Layout.commas (ports.map (portText registers names))) ");"
    ++ [.newline]
  let declarations := (order.filter (· ∉ listed)).map
    (declaration config.asicSyntax registers driven names)
  let starts := if config.asicSyntax then [] else
    (listed.filter (· ∈ registers)).map fun s =>
      Layout.line s!"initial {names.name s} = {resetText s};"
  let body : Emit (List Layout × List Layout) := do
    let comb ← combText n order
    let sync ← syncText n
    let cells ← cellsText n config.memoryInit
    return (comb, sync ++ cells)
  let (result, printer) := body.run.run { names, used }
  if printer.overflow then throw .overflow
  let (comb, rest) ← result.mapError .fault
  let wires := printer.temps.map fun t => Layout.line s!"wire {shapeText t.shape}{t.name};"
  let temps := printer.temps.map fun t => Layout.line s!"assign {t.name} = {t.text};"
  return {
    source := Layout.render (header ++ declarations ++ starts ++ wires ++ [.newline]
      ++ temps ++ comb ++ [.newline] ++ rest ++ [.line "endmodule"])
    files := printer.files
    names }

end Gateware.Verilog
