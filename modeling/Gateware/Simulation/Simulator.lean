import Gateware.Netlist.Drivers
import Gateware.Netlist.Resolve
import Gateware.Simulation.Process

/-!
# Simulation

A netlist is simulated one clock edge at a time. Between edges the combinational logic settles and
asynchronous resets take hold; on an edge all registers of the domain load at once.
-/
namespace Gateware

/-- A netlist being simulated. -/
structure Simulator where
  state : SimState
  processes : List Process
  sync : OrdMap String (List Stmt)
  domains : List ClockDomain
  memories : List MemoryState
  /-- The number of edges that each domain has seen. -/
  cycles : OrdMap String Nat

namespace Simulator

/-- A step of the simulation. What was done before a fault stays done. -/
abbrev Step := ExceptT SimFault (StateM Simulator)

def peek (sim : Simulator) : Valuation := sim.state.value

/-- Drive a signal from outside, seen when the logic settles next. -/
def poke (sim : Simulator) (s : Signal) (v : Int) : Simulator :=
  { sim with state := sim.state.insert s (s.shape.wrap v) }

/-- The words of the memory of a name. -/
def memory? (sim : Simulator) (name : String) : Option (List Nat) :=
  (sim.memories.find? (·.memory.name = name)).map (·.words.toList)

def cyclesOf (sim : Simulator) (domain : String) : Nat := sim.cycles.getD domain 0

/-- What a process drives, given the state. -/
def results (memories : List MemoryState) (σ : SimState) : Process → Except SimFault SimState
  | .logic body writes =>
    let frame : Frame := { state := σ, writes := .ofKeys writes Signal.resetValue }
    let (result, frame) := (Frame.execAll body).run.run frame
    result.map fun _ => frame.writes
  | .asyncRead i p => .ok (.ofList [(p.datR, (memories[i]?.map (·.read (σ.value p.adr))).getD 0)])
  | .registeredRead i k p => .ok (.ofList [(p.datR, (memories[i]?.map (·.followed k)).getD 0)])

/-- Run a process and take over what it drives. -/
def runProcess (p : Process) : Step Unit := do
  let sim ← get
  let written ← results sim.memories sim.state p
  set { sim with state := sim.state.override written }

/-- One pass over the combinational logic. -/
def settleLogic : Step Unit := do (← get).processes.forM runProcess

/-- The registers that a reset of statements sets. -/
def resettable (ss : List Stmt) : List Signal := (Stmt.assigned ss).toList.filter (!·.resetLess)

/-- Whether a domain's asynchronous reset is asserted. -/
def asserted (σ : SimState) (d : ClockDomain) : Bool :=
  d.asyncReset && d.rst.any fun rst => (σ.get? rst).any (· ≠ 0)

/-- Reset the registers of a domain that is asynchronously reset, telling whether any changed. -/
def holdReset (sync : OrdMap String (List Stmt)) (acc : SimState × Bool) (d : ClockDomain) :
    SimState × Bool :=
  if asserted acc.1 d then
    (resettable (sync.getD d.name [])).foldl (fun (σ, changed) s =>
      if σ.get? s = some s.resetValue then (σ, changed)
      else (σ.insert s s.resetValue, true)) acc
  else acc

/-- Let all asynchronous resets take hold, telling whether any register changed. -/
def holdResets : Step Bool := do
  let sim ← get
  let (state, changed) := sim.domains.foldl (holdReset sim.sync) (sim.state, false)
  set { sim with state }
  return changed

/-- Let logic and asynchronous resets follow the current state. -/
def settle : Step Unit := do
  settleLogic
  if ← holdResets then settleLogic

/-- Whether anything in the design belongs to a domain. -/
def knows (sim : Simulator) (domain : String) : Bool :=
  sim.sync.contains domain || sim.domains.any (·.name = domain) ||
  sim.memories.any fun m => m.memory.ports.any (·.domain = domain)

/-- Whether a domain's reset is set. -/
def inReset (sim : Simulator) (domain : String) : Bool :=
  match sim.domains.find? (·.name = domain) with
  | some d => d.rst.any fun rst => sim.peek rst ≠ 0
  | none => false

/-- What the registers of a domain load on an edge. -/
def loaded (sim : Simulator) (domain : String) : Except SimFault SimState := do
  let ss := sim.sync.getD domain []
  let (result, frame) := (Frame.execAll ss).run.run { state := sim.state, clocked := true }
  result
  if sim.inReset domain then
    return frame.writes.insertAll ((resettable ss).map fun s => (s, s.resetValue))
  else return frame.writes

/-- Let registers and memories of a domain load. -/
def clockEdge (sim : Simulator) (domain : String) : Except SimFault Simulator := do
  let writes ← sim.loaded domain
  let edges := sim.memories.map fun m => m.edge sim.peek domain
  return { sim with
    state := (sim.state.override writes).insertAll (edges.flatMap (·.2))
    memories := edges.map (·.1)
    cycles := sim.cycles.insert domain (sim.cyclesOf domain + 1) }

/-- Advance a domain by one clock edge. -/
def tick (domain : String) : Step Unit := do
  if !(← get).knows domain then throw (.unknownDomain domain)
  settle
  let sim ← (← get).clockEdge domain
  set sim
  settle

/-- Advance a domain by a number of clock edges. -/
def run (domain : String) : Nat → Step Unit
  | 0 => pure ()
  | n + 1 => do
    tick domain
    run domain n

/-- The memories of a netlist; all other cells have to be lowered. -/
def memoriesOf (n : Netlist) : Except SimFault (List MemoryState) :=
  n.cells.values.mapM fun c =>
    match c.kind with
    | .memory m => .ok (.initial m)
    | _ => .error (.unsupported s!"special {c.describe} must be lowered first")

/-- The signals that statements assign or read. -/
def touched (ss : List Stmt) : OrdSet Signal := Stmt.assigned ss ∪ Stmt.read ss

/-- Prepare a netlist, without letting it settle. -/
def load (n : Netlist) : Except SimFault Simulator := do
  n.checkDrivers.mapError .design
  if (Stmt.sugarOf? n.stmts).isSome then
    throw (.unsupported "`NextState`/`NextValue` outside of an FSM")
  if let some (r, _) := Expr.dangling? n.domains (Stmt.exprsOf n.stmts) then
    throw (.unknownDomain r.domain)
  let comb := Stmt.mapExprsOf (Expr.resolved n.domains) n.comb
  let sync := n.sync.map (Stmt.mapExprsOf (Expr.resolved n.domains))
  let memories ← memoriesOf n
  let processes ← Process.ordered (Process.ofStmts comb ++ Process.ofMemories memories)
  let signals := (touched n.comb ∪ touched sync.values.flatten).insertAll
    (n.domains.flatMap ClockDomain.signals)
  return { state := .ofKeys signals Signal.resetValue, processes, sync, domains := n.domains
           memories, cycles := ∅ }

/-- A settled simulation of a netlist. -/
def start (n : Netlist) : Except SimFault Simulator := do
  let sim ← load n
  let (result, sim) := settle.run.run sim
  result
  return sim

end Simulator

end Gateware
