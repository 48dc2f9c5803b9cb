import Gateware.Config.Basic
import Gateware.Expr.Shape
import Gateware.Fault
import Gateware.Verilog.Layout
import Gateware.Verilog.Name

/-!
# The printer's state

What printing a module keeps track of: names, the temporaries that stand for subexpressions, and the
files written beside the source.
-/
namespace Gateware.Verilog

/-- A file beside the source. -/
structure DataFile where
  name : String
  contents : String
deriving DecidableEq, Repr

/-- A wire that stands for a subexpression. -/
structure Temp where
  name : String
  shape : Shape
  text : String

structure Printer where
  names : Names
  used : Scope
  /-- The subexpressions that have a temporary. -/
  hoisted : List (Expr × String) := []
  temps : List Temp := []
  files : List DataFile := []
  /-- A number has gone below zero. The program stops there, and what is printed later is lost. -/
  overflow : Bool := false

/-- Printing in an expression or a statement. -/
abbrev Print := StateM Printer

/-- Printing that can fail. -/
abbrev Emit := ExceptT Fault Print

/-- Stop if a number goes below zero. -/
def watch (below : Bool) : Print Unit := modify fun p => { p with overflow := p.overflow || below }

/-- The name of a signal. -/
def nameOf (s : Signal) : Print String := do return (← get).names.name s

/-- Take a new name. -/
def claim (hint : String) : Print String :=
  modifyGet fun p =>
    let name := p.used.free hint
    (name, { p with used := p.used.insert name })

/-- A literal with its width. -/
def literalText (c : Literal) : String :=
  let width := max c.shape.width 1
  if c.shape.signed then
    if c.value < 0 then s!"-{width}'sd{-c.value}" else s!"{width}'sd{c.value}"
  else s!"{width}'d{c.value}"

/-- What a declaration says of a shape, for instance `signed [7:0] `. -/
def shapeText (s : Shape) : String :=
  (if s.signed then "signed " else "") ++ (if 1 < s.width then s!"[{s.width - 1}:0] " else "")

end Gateware.Verilog
