import Gateware.Netlist.Domains

/-!
# Decorators

Changes to a whole netlist: gating the registers of a domain, resetting them, renaming domains.
-/
namespace Gateware

inductive Decorator
  /-- Registers of the domain load only while `enable` is set. -/
  | clockEnable (domain : String) (enable : Expr)
  /-- Registers of the domain return to their reset values while `reset` is set. -/
  | reset (domain : String) (reset : Expr)
  /-- Domains take new names, all at once. -/
  | rename (names : OrdMap String String)

namespace Decorator

/-- Assignments of their reset values to the signals that statements assign, reset-less ones
aside. -/
def clears (ss : List Stmt) : List Stmt :=
  ((Stmt.assigned ss).toList.filter (!·.resetLess)).map fun (s : Signal) => .assign s (.int s.reset)

/-- Run statements only under a condition. -/
def gated (enable : Expr) (ss : List Stmt) : List Stmt := [.branch enable ss []]

/-- Let a condition override statements by resets, if they assign anything that resets. -/
def clearable (reset : Expr) (ss : List Stmt) : List Stmt :=
  if (clears ss).isEmpty then ss else ss ++ [.branch reset (clears ss) []]

/-- A name that stands in for the domain at a place of the list while others are renamed. -/
def standIn (i : Nat) : String := "\x00rename" ++ toString i

/-- Rename by way of stand-ins, so that names can trade places. -/
def renameAll (names : OrdMap String String) (n : Netlist) : Netlist :=
  let moves := (names.entries.zipIdx.filter fun (e, _) => e.1 ≠ e.2)
  let n := moves.foldl (fun n (e, i) => n.renameDomain e.1 (standIn i)) n
  moves.foldl (fun n (e, i) => n.renameDomain (standIn i) e.2) n

def apply (n : Netlist) : Decorator → Netlist
  | clockEnable domain enable => { n with sync := n.sync.modify domain (gated enable) }
  | reset domain value => { n with sync := n.sync.modify domain (clearable value) }
  | rename names => renameAll names n

end Decorator

end Gateware
