import Gateware.Expr.Ref
import Gateware.Memory

/-!
# Cells

Hardware that assignments cannot express: memories, pads, synchronizers, foreign modules. Some
kinds can be written out as they are; the others have to be lowered to those first.
-/
namespace Gateware

/-- The direction of a port, seen from the cell. -/
inductive Direction
  | input
  | output
  | inout
deriving DecidableEq, Repr

/-- A parameter of a foreign module. -/
inductive Param
  | int (value : Int)
  | str (value : String)
  /-- A double in its standard encoding. -/
  | real (bits : UInt64)
deriving DecidableEq, Repr

/-- A connection or a parameter of a foreign module. -/
inductive Instance.Item
  | connect (direction : Direction) (port : String) (value : Expr)
  | param (name : String) (value : Param)
deriving DecidableEq, Repr

/-- A foreign module put to use. -/
structure Instance where
  of : String
  name : Option String := none
  items : List Instance.Item := []
deriving DecidableEq, Repr

/-- A pad driven only while enabled. -/
structure Tristate where
  target : Signal
  o : Expr
  oe : Expr
  i : Option Signal
deriving DecidableEq, Repr

/-- A chain of registers that brings a value into another domain. -/
structure MultiReg where
  input : Expr
  output : Signal
  odomain : String
  stages : Nat
deriving DecidableEq, Repr

/-- The source of a domain's reset, entered at once and left on a clock edge. -/
structure ResetSync where
  domain : String
  asyncReset : Expr
deriving DecidableEq, Repr

structure DiffInput where
  p : Signal
  n : Signal
  output : Signal
deriving DecidableEq, Repr

structure DiffOutput where
  input : Expr
  p : Signal
  n : Signal
deriving DecidableEq, Repr

/-- Text for a tool, with numbered places for signal names. -/
structure Directive where
  template : String
  signals : List Signal
deriving DecidableEq, Repr

inductive Cell.Kind
  | inst (i : Instance)
  | memory (m : Memory)
  | tristate (t : Tristate)
  | multiReg (m : MultiReg)
  | resetSync (r : ResetSync)
  | diffInput (d : DiffInput)
  | diffOutput (d : DiffOutput)
  | directive (d : Directive)
deriving DecidableEq, Repr

/-- The kind of a cell without its contents. -/
inductive Cell.Tag
  | inst
  | memory
  | tristate
  | multiReg
  | resetSync
  | diffInput
  | diffOutput
  | directive
deriving DecidableEq, Repr

/-- A cell with its identity. -/
structure Cell where
  id : CellId
  kind : Cell.Kind
deriving DecidableEq, Repr

/-- A named place where a cell meets the design. -/
structure Cell.Port where
  name : String
  value : Expr
  direction : Direction
deriving DecidableEq, Repr

namespace Cell

namespace Tag

def all : List Tag :=
  [inst, memory, tristate, multiReg, resetSync, diffInput, diffOutput, directive]

def text : Tag → String
  | inst => "Instance"
  | memory => "Memory"
  | tristate => "Tristate"
  | multiReg => "MultiReg"
  | resetSync => "AsyncResetSynchronizer"
  | diffInput => "DifferentialInput"
  | diffOutput => "DifferentialOutput"
  | directive => "SynthesisDirective"

/-- Whether the kind can be written out without lowering. -/
def native : Tag → Bool
  | inst | memory | tristate | directive => true
  | _ => false

/-- The place among the kinds. -/
def rank : Tag → Nat
  | inst => 0
  | memory => 1
  | tristate => 2
  | multiReg => 3
  | resetSync => 4
  | diffInput => 5
  | diffOutput => 6
  | directive => 7

instance : Ord Tag := ⟨compareOn rank⟩

instance : Std.TransOrd Tag := inferInstanceAs (Std.TransCmp (compareOn rank))

instance : Std.LawfulEqOrd Tag where
  eq_of_compare {a b} h := by
    have : a.rank = b.rank := Std.LawfulEqOrd.eq_of_compare h
    cases a <;> cases b <;> simp_all [rank]

end Tag

def Kind.tag : Kind → Tag
  | .inst _ => .inst
  | .memory _ => .memory
  | .tristate _ => .tristate
  | .multiReg _ => .multiReg
  | .resetSync _ => .resetSync
  | .diffInput _ => .diffInput
  | .diffOutput _ => .diffOutput
  | .directive _ => .directive

def tag (c : Cell) : Tag := c.kind.tag

/-- Give a new identity to a kind. -/
def fresh (kind : Kind) : StateM Supply Cell := do
  let id ← CellId.fresh
  return { id, kind }

def Kind.memoryPorts (p : Memory.Port) : List Port :=
  [⟨s!"{p.name}.adr", p.adr, .input⟩, ⟨s!"{p.name}.dat_r", p.datR, .output⟩] ++
  (match p.write with
  | some w => [⟨s!"{p.name}.we", w.enable, .input⟩, ⟨s!"{p.name}.dat_w", w.data, .input⟩]
  | none => []) ++
  p.re.toList.map fun re => ⟨s!"{p.name}.re", re, .input⟩

/-- Everything a cell reads or drives. -/
def Kind.ports : Kind → List Port
  | .inst i => i.items.filterMap fun
    | .connect direction port value => some ⟨port, value, direction⟩
    | .param .. => none
  | .memory m => m.ports.flatMap memoryPorts
  | .tristate t =>
    [⟨"target", t.target, .inout⟩, ⟨"o", t.o, .input⟩, ⟨"oe", t.oe, .input⟩] ++
    t.i.toList.map fun i => ⟨"i", i, .output⟩
  | .multiReg m => [⟨"i", m.input, .input⟩, ⟨"o", m.output, .output⟩]
  | .resetSync r =>
    [⟨"async_reset", r.asyncReset, .input⟩, ⟨"rst", .reset r.domain, .output⟩]
  | .diffInput d => [⟨"p", d.p, .input⟩, ⟨"n", d.n, .input⟩, ⟨"o", d.output, .output⟩]
  | .diffOutput d => [⟨"i", d.input, .input⟩, ⟨"p", d.p, .output⟩, ⟨"n", d.n, .output⟩]
  | .directive d => d.signals.zipIdx.map fun (s, i) => ⟨toString i, s, .input⟩

def ports (c : Cell) : List Port := c.kind.ports

/-- The ports that a cell drives or may drive. -/
def outputs (c : Cell) : List Port := c.ports.filter (·.direction ≠ .input)

/-- The domains a cell belongs to by its own fields. -/
def Kind.homes : Kind → List String
  | .memory m => (m.ports.filter (·.clocked)).map (·.domain)
  | .multiReg m => [m.odomain]
  | .resetSync r => [r.domain]
  | _ => []

/-- The domains a cell belongs to or mentions. -/
def domains (c : Cell) : OrdSet String :=
  .ofList (c.kind.homes ++ c.ports.flatMap fun p => p.value.refs.map (·.domain))

/-- The values of a cell, fields that have to be plain signals aside. -/
def Kind.exprs : Kind → List Expr
  | .inst i => i.items.filterMap fun
    | .connect _ _ value => some value
    | .param .. => none
  | .tristate t => [t.o, t.oe]
  | .multiReg m => [m.input]
  | .resetSync r => [r.asyncReset]
  | .diffOutput d => [d.input]
  | .memory _ => []
  | .diffInput _ => []
  | .directive _ => []

/-- Apply `f` to every value. Fields that have to be plain signals stay. -/
def Kind.mapExprs (f : Expr → Expr) : Kind → Kind
  | .inst i => .inst { i with items := i.items.map fun
    | .connect direction port value => .connect direction port (f value)
    | .param name value => .param name value }
  | .memory m => .memory m
  | .tristate t => .tristate { t with o := f t.o, oe := f t.oe }
  | .multiReg m => .multiReg { m with input := f m.input }
  | .resetSync r => .resetSync { r with asyncReset := f r.asyncReset }
  | .diffInput d => .diffInput d
  | .diffOutput d => .diffOutput { d with input := f d.input }
  | .directive d => .directive d

def mapExprs (f : Expr → Expr) (c : Cell) : Cell := { c with kind := c.kind.mapExprs f }

/-- Move a kind to renamed homes, leaving its values alone. -/
def Kind.moveHomes (f : String → String) : Kind → Kind
  | .memory m => .memory (m.moveHomes f)
  | .multiReg m => .multiReg { m with odomain := f m.odomain }
  | .resetSync r => .resetSync { r with domain := f r.domain }
  | k => k

/-- The same cell about renamed domains. -/
def renameDomains (f : String → String) (c : Cell) : Cell :=
  { c with kind := (c.kind.moveHomes f).mapExprs (Expr.renameDomains f) }

/-- For instance `Memory ram`. -/
def describe (c : Cell) : String :=
  match c.kind with
  | .inst i => s!"Instance {i.name.getD i.of}"
  | .memory m => s!"Memory {m.name}"
  | .tristate t => s!"Tristate {t.target.name}"
  | .multiReg m => s!"MultiReg {m.output.name}"
  | .resetSync r => s!"AsyncResetSynchronizer {r.domain}"
  | .diffInput d => s!"DifferentialInput {d.output.name}"
  | .diffOutput d => s!"DifferentialOutput {d.p.name}"
  | .directive _ => "SynthesisDirective"

end Cell

end Gateware
