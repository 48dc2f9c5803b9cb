import Gateware.Lowering.Basic

/-!
# Pads from buffer primitives

Differential pairs and tri-state pads as instances of the buffers that device libraries provide.
-/
namespace Gateware.Lowering

/-- A netlist of one new instance. -/
def single (of : String) (items : List Instance.Item) : Build Netlist := do
  let c ← Cell.fresh (.inst { of, items })
  return ({} : Netlist).addCell c

def diffInput : Lowering where
  name := "ibufds"
  lower c := do
    let .diffInput d := c.kind | throw (cannot "ibufds" c)
    single "IBUFDS"
      [.connect .input "I" d.p, .connect .input "IB" d.n, .connect .output "O" d.output]

def diffOutput : Lowering where
  name := "obufds"
  lower c := do
    let .diffOutput d := c.kind | throw (cannot "obufds" c)
    single "OBUFDS"
      [.connect .input "I" d.input, .connect .output "O" d.p, .connect .output "OB" d.n]

/-- The buffer's enable is active low. -/
def tristate : Lowering where
  name := "iobuf"
  lower c := do
    let .tristate t := c.kind | throw (cannot "iobuf" c)
    single "IOBUF" ([.connect .input "I" t.o, .connect .input "T" (.unary .invert t.oe)]
      ++ t.i.toList.map (fun i => .connect .output "O" i)
      ++ [.connect .inout "IO" t.target])

end Gateware.Lowering
