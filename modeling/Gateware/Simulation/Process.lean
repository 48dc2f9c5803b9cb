import Gateware.Graph
import Gateware.Simulation.Memory
import Gateware.Stmt.Sets

/-!
# Processes

Combinational statements that assign a common signal form a process. Processes and memory reads are
put in an order in which each one runs after those that drive what it reads, so that one pass
settles all of them.
-/
namespace Gateware

/-- A unit of combinational evaluation. Memories and ports are numbered. -/
inductive Process
  | logic (body : List Stmt) (writes : OrdSet Signal)
  /-- The word at the address that the port shows now. -/
  | asyncRead (memory : Nat) (port : Memory.Port)
  /-- The word at the address that the port took in last. -/
  | registeredRead (memory index : Nat) (port : Memory.Port)

namespace Process

/-- Statements by their places, and the signals they assign. -/
structure Group where
  members : OrdMap Nat Stmt
  writes : OrdSet Signal

/-- Put a statement into a group with all groups that assign one of its signals. -/
def regroup (groups : List Group) (place : Nat) (s : Stmt) : List Group :=
  let own := Stmt.assigned [s]
  let touched := groups.filter fun g => !own.disjoint g.writes
  groups.filter (fun g => own.disjoint g.writes) ++
    [{ members := touched.foldl (fun m g => m.override g.members) (.ofList [(place, s)])
       writes := touched.foldl (fun w g => w ∪ g.writes) own }]

/-- The processes of combinational statements; each keeps its statements in order. -/
def ofStmts (ss : List Stmt) : List Process :=
  (ss.zipIdx.foldl (fun groups (s, i) => regroup groups i s) []).map fun g =>
    .logic g.members.values g.writes

/-- The reads of memories that follow without a clock edge. -/
def ofMemories (ms : List MemoryState) : List Process :=
  ms.zipIdx.flatMap fun (m, i) => m.memory.ports.zipIdx.filterMap fun (p, k) =>
    if p.asyncRead then some (.asyncRead i p)
    else if p.mode = .writeFirst then some (.registeredRead i k p)
    else none

/-- The signals a process drives. -/
def outputs : Process → OrdSet Signal
  | logic _ writes => writes
  | asyncRead _ p => .singleton p.datR
  | registeredRead _ _ p => .singleton p.datR

/-- The signals a process reads. -/
def inputs : Process → OrdSet Signal
  | logic body _ => Stmt.read body
  | asyncRead _ p => .singleton p.adr
  | registeredRead .. => ∅

/-- The process that drives each signal. -/
def drivers (ps : List Process) : OrdMap Signal Nat :=
  ps.zipIdx.foldl (fun m (p, i) => p.outputs.toList.foldl (fun m s => m.insert s i) m) ∅

/-- An edge from every process to those that read what it drives, itself aside. -/
def graph (ps : List Process) : Graph :=
  let drivers := drivers ps
  ps.zipIdx.foldl (fun g (p, i) => p.inputs.toList.foldl (fun g s =>
    match drivers.get? s with
    | some d => if d = i then g else g.connect d i
    | none => g) g) { size := ps.length }

/-- The name of the oldest signal that a process drives. -/
def label (p : Process) : String := (p.outputs.toList.head?.map (·.name)).getD ""

/-- The processes, each one after those that drive what it reads. -/
def ordered (ps : List Process) : Except SimFault (List Process) :=
  match (graph ps).order with
  | .error v => .error (.combinationalLoop ((ps[v]?.map label).getD ""))
  | .ok order => .ok (order.filterMap (ps[·]?))

end Process

end Gateware
