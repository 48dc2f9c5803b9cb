import Gateware.Lowering.Pad
import Gateware.Lowering.Synchronizer
import Gateware.Text.Quoted

/-!
# Targets

The tables of lowerings that targets go by.
-/
namespace Gateware.Lowering

/-- Every built-in lowering. -/
def builtin : List Lowering := [multiReg, resetSync, diffInput, diffOutput, tristate]

/-- Synchronizers from plain registers, the rest as it is. -/
def Table.generic : Table := .ofList [(.multiReg, multiReg), (.resetSync, resetSync)]

/-- Plain registers and buffer primitives. -/
def Table.vendor : Table :=
  Table.generic.insertAll
    [(.diffInput, diffInput), (.diffOutput, diffOutput), (.tristate, tristate)]

/-- The table of a target, whatever the case of its name. -/
def Table.ofTarget? (target : String) : Option Table :=
  match target.toLower with
  | "native" | "none" => some ∅
  | "generic" => some .generic
  | "vendor" | "primitives" => some .vendor
  | _ => none

/-- What is said of a target that there is no table for. -/
def Table.unknownText (target : String) : String :=
  s!"internal compiler error: unknown lowering target: {Text.quoted target}. " ++
    "Supported: native, generic, vendor"

end Gateware.Lowering
