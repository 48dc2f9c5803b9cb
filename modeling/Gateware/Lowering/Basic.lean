import Gateware.Netlist.Drivers

/-!
# Lowering cells

A lowering replaces a kind of cell by plain logic or simpler cells. A table says which kinds to
replace; replacing goes on until only cells are left that can be written out as they are.
-/
namespace Gateware

/-- A named way to replace cells of one kind. -/
structure Lowering where
  name : String
  lower : Cell → Build Netlist

namespace Lowering

/-- The lowerings of a target by kind. A kind in the table is always replaced. -/
abbrev Table := OrdMap Cell.Tag Lowering

/-- The refusal of a kind that a lowering is not for. -/
def cannot (name : String) (c : Cell) : Fault :=
  .unsupportedSpecial c.describe s!"`{name}` cannot lower this kind"

/-- The domains whose reset statements assign. -/
def resetTargets (n : Netlist) : List String :=
  (Stmt.targetsOf n.stmts).filterMap fun
    | .ref (.reset domain _) => some domain
    | _ => none

/-- Whether a replacement still drives what a port of the cell drove. -/
def keeps (replacement : Netlist) (p : Cell.Port) : Bool :=
  match p.value with
  | .ref (.reset domain _) => domain ∈ resetTargets replacement
  | value => value.targets.subset replacement.driven

/-- The first output that a replacement no longer drives. -/
def lostPort? (c : Cell) (replacement : Netlist) : Option Cell.Port :=
  c.outputs.find? (!keeps replacement ·)

/-- A step that remembers the replacement of every cell lowered so far. -/
abbrev Run := StateT (OrdMap CellId Netlist) Build

/-- Replace a cell, the same way every time. -/
def lowerCell (table : Table) (c : Cell) : Run Netlist := do
  if let some n := (← get).get? c.id then return n
  let some lowering := table.get? c.tag | throw (.missingLowering c.describe)
  let n ← lowering.lower c
  if let some p := lostPort? c n then throw (.loweringLostPort c.describe p.name)
  modify (·.insert c.id n)
  return n

/-- The cells to replace, if those to keep can be written out. -/
def pending (table : Table) (n : Netlist) : Except Fault (List Cell) :=
  match n.cells.values.find? fun c => !table.contains c.tag && !c.tag.native with
  | some c => .error (.missingLowering c.describe)
  | none => .ok (n.cells.values.filter fun c => table.contains c.tag)

/-- Replace cells in at most `rounds` more rounds out of `limit`. -/
def lowerRounds (table : Table) (limit : Nat) : (rounds : Nat) → Netlist → Run Netlist
  | 0, _ => throw (.loweringDidNotConverge limit)
  | rounds + 1, n => do
    let cells ← pending table n
    if cells.isEmpty then return n
    let kept := { n with cells := n.cells.filter fun c => !table.contains c.tag }
    let n ← cells.foldlM (fun n c => do return n ++ (← lowerCell table c)) kept
    lowerRounds table limit rounds n

/-- The number of rounds allowed unless said otherwise. -/
def roundLimit : Nat := 16

/-- Replace cells until the table has none for those left. -/
def lowerNetlist (table : Table) (limit : Nat) (n : Netlist) : Run Netlist :=
  lowerRounds table limit limit n

end Lowering

end Gateware
