import Gateware.Expr.Normal
import Gateware.Stmt.Fold
import Gateware.Verilog.Expression

/-!
# Clocked statements

The statements of a clock domain become one block that runs on the clock's edge, with the domain's
reset behind them, or before them when it is asynchronous.
-/
namespace Gateware.Verilog

open Layout (block)

/-- One assignment. -/
def plainAssignment (lhs rhs : Expr) : Print (List Layout) := do
  let l ← target lhs
  let r ← assigned rhs lhs.width
  return [.line s!"{l} <= {r};"]

mutual
/-- An assignment to a target in normal form; one that leaves open which signal it drives becomes a
selection. -/
def assignment (lhs rhs : Expr) : Print (List Layout) :=
  match lhs with
  | .mux _ [c] => assignment c rhs
  | .mux s cs => do
    let selector ← operand s
    let arms ← choiceAssignments cs rhs s.width 0 (cs.length - 1)
    return block s!"case ({selector})" arms "endcase"
  | .concat ps =>
    if Expr.anyChoice ps then do
      let width := (Expr.concat ps).width
      watch (rhs.unfit width)
      partAssignments ps (rhs.fit width) 0
    else plainAssignment (.concat ps) rhs
  | e => plainAssignment e rhs
termination_by structural lhs

/-- Assignments of the bits from `lo` on to parts. -/
def partAssignments (parts : List Expr) (rhs : Expr) (lo : Nat) : Print (List Layout) :=
  match parts with
  | [] => pure []
  | p :: ps => do
    let first ← assignment p (rhs.extract lo (lo + p.width))
    let rest ← partAssignments ps rhs (lo + p.width)
    return first ++ rest
termination_by structural parts

/-- One arm for each choice from number `i` on; the last one is for all other selectors. -/
def choiceAssignments (choices : List Expr) (rhs : Expr) (width i last : Nat) :
    Print (List Layout) :=
  match choices with
  | [] => pure []
  | c :: cs => do
    let body ← assignment c rhs
    let head := if i = last then "default: begin" else s!"{width}'d{i}: begin"
    let rest ← choiceAssignments cs rhs width (i + 1) last
    return block head body "end" ++ rest
termination_by structural choices
end

mutual
def statement : Stmt → Print (List Layout)
  | .assign lhs rhs => assignment lhs.normal rhs
  | .branch cond yes no => do
    let cond ← operand cond
    let yes ← statements yes
    if no.isEmpty then return block s!"if ({cond}) begin" yes "end"
    let no ← statements no
    return [.line s!"if ({cond}) begin", .indent] ++ yes ++ [.outdent]
      ++ block "end else begin" no "end"
  | .select test arms => do
    let test ← operand test
    let arms ← armStatements arms
    return block s!"case ({test})" arms "endcase"
  | .nextState _ => pure []
  | .nextValue .. => pure []

def statements : List Stmt → Print (List Layout)
  | [] => pure []
  | s :: ss => do
    let first ← statement s
    let rest ← statements ss
    return first ++ rest

def armStatements : Arms → Print (List Layout)
  | .done => pure []
  | .otherwise body => do
    let body ← statements body
    return block "default: begin" body "end"
  | .arm key body rest => do
    let body ← statements body
    let rest ← armStatements rest
    return block s!"{literalText key}: begin" body "end" ++ rest
end

/-- A signal's reset value. -/
def resetText (s : Signal) : String := literalText (.sized s.reset s.shape)

/-- Assignments of reset values. -/
def resets (signals : List Signal) : Print (List Layout) :=
  signals.mapM fun s => do
    let name ← nameOf s
    return .line s!"{name} <= {resetText s};"

/-- The block of a clock domain. -/
def clockedBlock (d : ClockDomain) (ss : List Stmt) : Print (List Layout) := do
  let clk ← nameOf d.clk
  let resettable := (Stmt.assigned ss).toList.filter (!·.resetLess)
  let rst := if resettable.isEmpty then none else d.rst
  let plain := s!"always @(posedge {clk}) begin"
  match rst with
  | none => do
    let body ← statements ss
    return block plain body "end" ++ [.newline]
  | some rst => do
    let rst ← nameOf rst
    if d.asyncReset then
      let clears ← resets resettable
      let body ← statements ss
      return block s!"always @(posedge {clk} or posedge {rst}) begin"
        ([.line s!"if ({rst}) begin", .indent] ++ clears ++ [.outdent]
          ++ block "end else begin" body "end") "end" ++ [.newline]
    else
      let body ← statements ss
      let clears ← resets resettable
      return block plain (body ++ block s!"if ({rst}) begin" clears "end") "end" ++ [.newline]

end Gateware.Verilog
