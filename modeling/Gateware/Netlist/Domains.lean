import Gateware.Netlist.Basic

/-!
# The clock domains of a netlist

Which domains a netlist declares and uses, and giving them other names.
-/
namespace Gateware.Netlist

def domain? (n : Netlist) (name : String) : Option ClockDomain := n.domains.find? (·.name = name)

/-- The names of the declared domains. -/
def declared (n : Netlist) : OrdSet String := .ofList (n.domains.map (·.name))

/-- The domains with clocked statements. -/
def clocked (n : Netlist) : List String :=
  (n.sync.entries.filter (!·.2.isEmpty)).map (·.1)

/-- The domains that have statements or a cell, or that a value mentions. -/
def used (n : Netlist) : OrdSet String :=
  .ofList (n.clocked
    ++ (Stmt.exprsOf n.stmts).flatMap (fun e => e.refs.map (·.domain))
    ++ n.cells.values.flatMap fun c => c.domains.toList)

/-- Rename domains everywhere. Clocked lists that meet follow each other in the order of their old
names. -/
def renameDomains (f : String → String) (n : Netlist) : Netlist where
  comb := Stmt.renameDomains f n.comb
  sync := n.sync.entries.foldl
    (fun m e => m.alter (f e.1) fun old => old.getD [] ++ Stmt.renameDomains f e.2) ∅
  cells := n.cells.map (Cell.renameDomains f)
  domains := n.domains.map fun d => { d with name := f d.name }

/-- Another name for one domain. -/
def swapName (old new : String) (d : String) : String := if d = old then new else d

def renameDomain (n : Netlist) (old new : String) : Netlist := n.renameDomains (swapName old new)

/-- The first name in a list that occurs before. -/
def firstRepeated : List String → List String → Option String
  | _, [] => none
  | seen, x :: xs => if x ∈ seen then some x else firstRepeated (x :: seen) xs

/-- No domain is declared twice. -/
def checkDomains (n : Netlist) : Except Fault Unit :=
  match firstRepeated [] (n.domains.map (·.name)) with
  | some d => .error (.duplicateClockDomain d)
  | none => .ok ()

end Gateware.Netlist
