import Gateware.Hierarchy.Finalize

/-!
# Bundled designs

Small circuits to convert: clocked logic, a state machine, a memory, and a value that crosses from
one clock domain into another.
-/
namespace Gateware.Command

inductive Demo
  | counter
  | blinker
  | memory
  | cdc
deriving DecidableEq, Repr

namespace Demo

def ofName? : String → Option Demo
  | "counter" => some .counter
  | "blinker" => some .blinker
  | "memory" => some .memory
  | "cdc" => some .cdc
  | _ => none

/-- The name of the design's module unless settings say otherwise. -/
def moduleName : Demo → String
  | counter => "counter"
  | blinker => "blinker"
  | memory => "ram"
  | cdc => "cdc"

/-- A module with additions. -/
def assemble (name : String) (additions : List (Addition Hook)) : Except Fault (Module Hook) :=
  additions.foldlM Module.extend (Module.empty name)

/-- A counter of `width` bits that advances while it is enabled. -/
def counterModule (width : Nat) : Build (Module Hook × List Signal) := do
  let enable ← Signal.fresh "enable" (.unsigned 1)
  let count ← Signal.fresh "count" (.unsigned width)
  let step := Stmt.assign count (.binary .add count (.int 1))
  let m ← assemble "counter" [.sync "sys" [.branch enable [step] []]]
  return (m, [enable, count])

/-- A light that is on for `period` cycles and off for as many. -/
def blinkerModule (period : Nat) : Build (Module Hook × List Signal) := do
  let led ← Signal.fresh "led" (.unsigned 1)
  let timer ← Signal.fresh "timer" (.ofRange 0 (max period 1 : Nat))
  let expired ← Signal.fresh "expired" (.unsigned 1)
  let machine : Machine := { name := "blink" }
  let machine := machine.act "OFF" [.branch expired [.nextState "ON"] []]
  let machine := machine.act "ON"
    [.assign led (.int 1), .branch expired [.nextState "OFF"] []]
  let reload := Stmt.assign timer (.int (period - 1 : Nat))
  let count := Stmt.assign timer (.binary .sub timer (.int 1))
  let m ← assemble "blinker"
    [.comb [.assign expired (.eq timer (.int 0))], .sync "sys" [.branch expired [reload] [count]],
     .child (some "fsm") (.ofMachine machine)]
  return (m, [led])

/-- A memory of 16 words of 8 bits that starts with its own addresses. Halves of a word can be
written apart, and reading waits for an enable. -/
def memoryModule : Build (Module Hook × List Signal) := do
  let mem : Memory := { name := "ram", width := 8, depth := 16 }
  let mem := mem.withInit ((List.range 16).map Int.ofNat)
  let (w, mem) ← mem.addPort { name := "w", write := true, granularity := 4 }
  let (r, mem) ← mem.addPort { name := "r", readEnable := true }
  let c ← Cell.fresh (.memory mem)
  let m ← assemble "ram" [.cell c]
  let written := (w.write.map fun side => [side.data, side.enable]).getD []
  return (m, w.adr :: written ++ r.adr :: r.re.toList ++ [r.datR])

/-- A register whose value goes into the domain `pix` through `stages` more. -/
def cdcModule (stages : Nat) : Build (Module Hook × List Signal) := do
  let din ← Signal.fresh "din" (.unsigned 4)
  let staged ← Signal.fresh "staged" (.unsigned 4)
  let dout ← Signal.fresh "dout" (.unsigned 4)
  let sys ← ClockDomain.fresh "sys"
  let pix ← ClockDomain.fresh "pix"
  let c ← Cell.fresh (.multiReg { input := staged, output := dout, odomain := "pix", stages })
  let m ← assemble "cdc" [.domain sys, .domain pix, .sync "sys" [.assign staged din], .cell c]
  return (m, [din, dout])

/-- The design's module and its ports. -/
def build : Demo → Build (Module Hook × List Signal)
  | counter => counterModule 8
  | blinker => blinkerModule 4
  | memory => memoryModule
  | cdc => cdcModule 2

end Demo

end Gateware.Command
