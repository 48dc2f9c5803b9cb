import Gateware.Cell
import Gateware.Decimal.Text
import Gateware.Verilog.Expression

/-!
# Cells

Instances, memories, tri-state pads and directives as text.
-/
namespace Gateware.Verilog

open Layout (block)

/-- The text of a parameter. -/
def paramText : Param → String
  | .int v => toString v
  | .str s => "\"" ++ s ++ "\""
  | .real bits => Decimal.text bits

/-- A module's name as a hint for an instance, in lower case. Of the letters past ASCII only two
have a lower case with an ASCII letter in it; the others stay illegal in a name whatever their
case. -/
def lowered (s : String) : String :=
  String.join (s.toList.map fun c =>
    if c.toNat = 0x130 then "i̇"
    else if c.toNat = 0x212a then "k"
    else c.toLower.toString)

/-- A port of an instance with what it is connected to. -/
def connection : Instance.Item → Print (Option String)
  | .connect .input port value => do
    let text ← operand value
    return some s!".{port}({text})"
  | .connect _ port value => do
    let text ← target value
    return some s!".{port}({text})"
  | .param .. => return none

/-- A parameter of an instance with its value. -/
def setting? : Instance.Item → Option String
  | .connect .. => none
  | .param name value => some s!".{name}({paramText value})"

def instanceText (i : Instance) : Print (List Layout) := do
  let name ← claim (i.name.getD (lowered i.of))
  let settings := i.items.filterMap setting?
  let connections ← i.items.mapM connection
  let head :=
    if settings.isEmpty then [.line s!"{i.of} {name} ("]
    else block s!"{i.of} #(" (Layout.commas settings) s!") {name} ("
  return head ++ [.indent] ++ Layout.commas (connections.filterMap id) ++ [.outdent, .line ");"]

def tristateText (t : Tristate) : Print (List Layout) := do
  let pad ← nameOf t.target
  let oe ← operand t.oe
  let o ← assigned t.o t.target.width
  let driven := Layout.line s!"assign {pad} = {oe} ? {o} : {t.target.width}'bz;"
  match t.i with
  | none => return [driven]
  | some i =>
    let i ← nameOf i
    return [driven, .line s!"assign {i} = {pad};"]

/-- A template with signal names in its numbered places, filled one after the other. -/
def fill (template : String) (names : List String) : String :=
  names.zipIdx.foldl (fun text (name, i) => text.replace ("\x7b" ++ toString i ++ "\x7d") name)
    template

def directiveText (d : Directive) : Print (List Layout) := do
  let names ← d.signals.mapM nameOf
  return [.line s!"// synthesis {fill d.template names}"]

/-- A word in as many hexadecimal digits as the memory's width needs. -/
def hexWord (width : Nat) (word : Int) : String :=
  let digits := String.ofList (Nat.toDigits 16 word.toNat)
  "".pushn '0' (max ((width + 3) / 4) 1 - digits.length) ++ digits

/-- All words of a memory, one to a line. -/
def imageText (m : Memory) : String :=
  String.join ((List.range m.depth).map fun i => hexWord m.width (m.init.getD i 0) ++ "\n")

/-- How a memory gets its first words, here or in a file beside the source. -/
def initText (style : MemoryInit) (m : Memory) (name : String) : Print (List Layout) := do
  if m.init.isEmpty then return []
  match style with
  | .inline =>
    let words := m.init.zipIdx.map fun (word, i) =>
      Layout.line s!"{name}[{i}] = {m.width}'d{word};"
    return block "initial begin" words "end"
  | .file =>
    let file := s!"{name}.init"
    modify fun p => { p with files := p.files ++ [⟨file, imageText m⟩] }
    return block "initial begin" [.line s!"$readmemh(\"{file}\", {name});"] "end"

/-- A line under a condition. -/
def guarded (cond line : String) : List Layout :=
  [.line s!"if ({cond})", .indent, .line line, .outdent]

/-- The writes of a port, lane by lane. -/
def writeText (m : Memory) (p : Memory.Port) (name adr : String) : Print (List Layout) := do
  match p.write with
  | none => return []
  | some w =>
    let we ← nameOf w.enable
    let data ← nameOf w.data
    let lanes := Memory.lanes p.granularity m.width
    if lanes = 1 then return guarded we s!"{name}[{adr}] <= {data};"
    return (List.range lanes).flatMap fun lane =>
      let lo := lane * p.granularity
      let hi := (lane + 1) * p.granularity - 1
      guarded s!"{we}[{lane}]" s!"{name}[{adr}][{hi}:{lo}] <= {data}[{hi}:{lo}];"

/-- The conditions under which a clocked port reads. -/
def readGates (p : Memory.Port) : Print (List String) := do
  let re ← p.re.toList.mapM nameOf
  let idle ←
    match p.mode, p.write with
    | .noChange, some w => do
      let we ← nameOf w.enable
      pure [s!"~|{we}"]
    | _, _ => pure []
  return re ++ idle

/-- The register behind a clocked read, its declaration and what it loads. A write-first port keeps
the address, the others keep the word. -/
def readRegister (m : Memory) (p : Memory.Port) (index : Nat) (name adr : String) :
    Print (String × Layout × String) := do
  if p.mode = .writeFirst then
    let reg ← claim s!"{name}_adr{index}"
    return (reg, .line s!"reg {shapeText (.unsigned m.addressWidth)}{reg};", s!"{reg} <= {adr};")
  else
    let reg ← claim s!"{name}_dat{index}"
    return (reg, .line s!"reg {shapeText (.unsigned m.width)}{reg};", s!"{reg} <= {name}[{adr}];")

def domainNamed (domains : List ClockDomain) (name : String) : Except Fault ClockDomain :=
  match domains.find? (·.name = name) with
  | some d => .ok d
  | none => .error (.unknownClockDomain name)

def memoryPortText (domains : List ClockDomain) (m : Memory) (name : String) (p : Memory.Port)
    (index : Nat) : Emit (List Layout) := do
  let adr ← nameOf p.adr
  let datR ← nameOf p.datR
  let follow := Layout.line s!"assign {datR} = {name}[{adr}];"
  if !p.clocked then return [follow]
  let d ← domainNamed domains p.domain
  let clk ← nameOf d.clk
  let always := s!"always @(posedge {clk}) begin"
  if p.asyncRead then
    let writes ← writeText m p name adr
    return block always writes "end" ++ [follow]
  let (reg, declaration, update) ← readRegister m p index name adr
  let writes ← writeText m p name adr
  let gates ← readGates p
  let reads :=
    if gates.isEmpty then [Layout.line update] else guarded (" & ".intercalate gates) update
  let shown :=
    if p.mode = .writeFirst then s!"assign {datR} = {name}[{reg}];" else s!"assign {datR} = {reg};"
  return declaration :: block always (writes ++ reads) "end" ++ [.line shown]

def memoryText (domains : List ClockDomain) (style : MemoryInit) (m : Memory) :
    Emit (List Layout) := do
  let name ← claim m.name
  let words := Layout.line s!"reg {shapeText (.unsigned m.width)}{name}[0:{max m.depth 1 - 1}];"
  let init ← initText style m name
  let ports ← m.ports.zipIdx.mapM fun (p, i) => memoryPortText domains m name p i
  return words :: init ++ ports.flatten

/-- A cell that can be written out as it is. -/
def cellText (domains : List ClockDomain) (style : MemoryInit) (c : Cell) : Emit (List Layout) := do
  let body ←
    match c.kind with
    | .inst i => (instanceText i : Emit _)
    | .memory m => memoryText domains style m
    | .tristate t => tristateText t
    | .directive d => directiveText d
    | _ => throw (.missingLowering c.describe)
  return body ++ [.newline]

end Gateware.Verilog
