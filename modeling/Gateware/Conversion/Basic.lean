import Gateware.Conversion.Port
import Gateware.Digest
import Gateware.Hierarchy.Finalize
import Gateware.Lowering.Basic

/-!
# Conversion

From a design to the text of a module: elaborate, lower, check, declare missing domains, resolve
references, check drivers, find ports, warn, and write.
-/
namespace Gateware

namespace Conversion

/-- A converted design. -/
structure Output where
  module : String
  source : String
  files : List Verilog.DataFile
  names : Verilog.Names
  ports : List Verilog.Port
  diagnostics : List Diagnostic

namespace Output

/-- The names of the ports. -/
def portNames (o : Output) : List (String × Direction) :=
  o.ports.filterMap fun p => (o.names.get? p.signal).map (·, p.direction)

/-- The fingerprint of the source and the files beside it. -/
def digest (o : Output) : Digest :=
  .ofParts (o.source :: o.files.flatMap fun f => [f.name, f.contents])

/-- The source file and the files beside it, by name. -/
def written (o : Output) : List (String × String) :=
  (s!"{o.module}.v", o.source) :: o.files.map fun f => (f.name, f.contents)

end Output

/-- The lint policy of a configuration. -/
def policy (c : Config) : Except Fault Lint.Policy :=
  c.lint.policy.mapError fun p => .invalidLintConfig p.message

/-- Drop the allowed warnings; a denied one stops the conversion. -/
def applyLints (p : Lint.Policy) (ds : List Diagnostic) : Except Fault (List Diagnostic) :=
  match p.apply ds with
  | (_, some d) => .error (.deniedWarning d.code d.message)
  | (kept, none) => .ok kept

/-- Draw identities for an elaboration of their own. -/
def elaborate (design : Design) (config : Config.Elaborate) : Build (Netlist × List Diagnostic) :=
  fun supply =>
    let (result, ctx) := design.elaborate.run.run (.ofConfig config supply)
    (result.map (·, ctx.log.entries), ctx.supply)

/-- The netlist that gets written, and the warnings on the way to it. -/
def prepare (design : Design) (table : Lowering.Table) (config : Config) :
    Build (Netlist × List Diagnostic) := do
  let (n, elaborated) ← elaborate design config.elaborate
  checkStrays n
  let (n, _) ← (Lowering.lowerNetlist table Lowering.roundLimit n).run ∅
  checkValues n
  n.checkDomains
  let (n, created) ← declareMissing config.codegen.createClockDomains n
  let unused := unusedWarnings n
  let n ← n.resolve
  n.checkDrivers
  return (n, elaborated ++ created ++ unused)

/-- The netlist, the ports to write it with, and the warnings that are kept. -/
def plan (design : Design) (ios : List Signal) (table : Lowering.Table) (config : Config) :
    Build (Netlist × List Verilog.Port × List Diagnostic) := do
  let policy ← policy config
  let (n, warnings) ← prepare design table config
  let ports := ports n ios
  let diagnostics ← applyLints policy
    (warnings ++ undrivenWarnings n ports ++ truncationWarnings n)
  return (n, ports, diagnostics)

end Conversion

/-- Convert a design to a module with the given ports. -/
def convert (design : Design) (ios : List Signal) (table : Lowering.Table) (config : Config) :
    ExceptT Verilog.Halt (StateM Supply) Conversion.Output := do
  let (n, ports, diagnostics) ← (Conversion.plan design ios table config).adapt Verilog.Halt.fault
  let written ← Verilog.write n ports config.codegen
  return { module := config.codegen.name, source := written.source, files := written.files
           names := written.names, ports, diagnostics }

end Gateware
