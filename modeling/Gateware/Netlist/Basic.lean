import Gateware.Cell
import Gateware.Stmt.Replace
import Gateware.Stmt.Sets

/-!
# Netlists

The flat form of a design. Netlists add up: statement lists follow each other, clocked lists do so
domain by domain, cells are kept once, and clock domains are listed in turn.
-/
namespace Gateware

/-- Logic, cells and clock domains without hierarchy. -/
structure Netlist where
  comb : List Stmt := []
  sync : OrdMap String (List Stmt) := ∅
  cells : OrdMap CellId Cell := ∅
  domains : List ClockDomain := []
deriving DecidableEq, Inhabited

namespace Netlist

def addComb (n : Netlist) (ss : List Stmt) : Netlist := { n with comb := n.comb ++ ss }

def addSync (n : Netlist) (domain : String) (ss : List Stmt) : Netlist :=
  { n with sync := n.sync.alter domain fun old => old.getD [] ++ ss }

/-- Add a cell; one that is already there stays as it is. -/
def addCell (n : Netlist) (c : Cell) : Netlist := { n with cells := n.cells.insertNew c.id c }

def addDomain (n : Netlist) (d : ClockDomain) : Netlist := { n with domains := n.domains ++ [d] }

/-- Put `b` behind `a`; of cells with one identity, that of `a` is kept. -/
def append (a b : Netlist) : Netlist where
  comb := a.comb ++ b.comb
  sync := a.sync.unionWith (· ++ ·) b.sync
  cells := a.cells.unionWith (fun kept _ => kept) b.cells
  domains := a.domains ++ b.domains

instance : Append Netlist := ⟨append⟩

def sum (ns : List Netlist) : Netlist := ns.foldl (· ++ ·) {}

/-- Whether the netlist holds nothing; a domain without statements is nothing. -/
def isEmpty (n : Netlist) : Bool :=
  n.comb.isEmpty && n.sync.values.all List.isEmpty && n.cells.isEmpty && n.domains.isEmpty

/-- All statements: the combinational ones, then the clocked ones domain by domain. -/
def stmts (n : Netlist) : List Stmt := n.comb ++ n.sync.values.flatten

/-- Apply `f` to every value of statements and cells. -/
def mapExprs (f : Expr → Expr) (n : Netlist) : Netlist :=
  { n with
    comb := Stmt.mapExprsOf f n.comb
    sync := n.sync.map (Stmt.mapExprsOf f)
    cells := n.cells.map (Cell.mapExprs f) }

end Netlist

end Gateware
