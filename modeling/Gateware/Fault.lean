import Gateware.Diagnostic.Basic
import Gateware.Signal

/-!
# Faults

What can be wrong with a design. Each fault has a code, a message and the place it is about.
-/
namespace Gateware

inductive Fault
  | malformedExpression (position detail : String)
  | sliceOutOfBounds (start stop width : Nat)
  | invalidAssignTarget (target : String)
  | alreadyFinalized (module : String)
  | anonymousDomainCollision (module domain : String)
  | hierarchyTooDeep (path : String) (maxDepth : Nat)
  | driverConflict (signal first second : String)
  | missingLowering (special : String)
  | loweringLostPort (special port : String)
  | loweringDidNotConverge (rounds : Nat)
  | duplicatePort (owner port : String)
  | duplicateSubmodule (module name : String)
  | duplicateClockDomain (domain : String)
  | unknownClockDomain (domain : String)
  | resetLessDomain (domain : String)
  | unknownFsmState (fsm state : String)
  | unloweredFsmStatement (statement context : String)
  | unsupportedSpecial (special reason : String)
  | deniedWarning (code : Code) (message : String)
  | duplicateCaseKey (key : String)
  | invalidLintConfig (message : String)
deriving DecidableEq, Repr

namespace Fault

/-- The number of the fault's code. -/
def number : Fault → Nat
  | malformedExpression .. => 200
  | sliceOutOfBounds .. => 201
  | invalidAssignTarget .. => 202
  | alreadyFinalized .. => 203
  | anonymousDomainCollision .. => 204
  | hierarchyTooDeep .. => 205
  | driverConflict .. => 206
  | missingLowering .. => 207
  | loweringLostPort .. => 208
  | loweringDidNotConverge .. => 209
  | duplicatePort .. => 210
  | duplicateSubmodule .. => 211
  | duplicateClockDomain .. => 212
  | unknownClockDomain .. => 213
  | resetLessDomain .. => 214
  | unknownFsmState .. => 215
  | unloweredFsmStatement .. => 216
  | unsupportedSpecial .. => 217
  | deniedWarning .. => 218
  | duplicateCaseKey .. => 219
  | invalidLintConfig .. => 220

def code (f : Fault) : Code := ⟨.error, f.number⟩

def message : Fault → String
  | malformedExpression position detail => s!"malformed expression at {position}: {detail}"
  | sliceOutOfBounds start stop width =>
    s!"slice [{start}:{stop}] is out of bounds for a {width}-bit value"
  | invalidAssignTarget target => s!"cannot assign to {target}"
  | alreadyFinalized module => s!"module `{module}` is already finalized"
  | anonymousDomainCollision module domain =>
    s!"anonymous submodules of `{module}` both declare clock domain `{domain}`"
  | hierarchyTooDeep path maxDepth =>
    s!"module hierarchy at `{path}` exceeds the depth limit of {maxDepth}"
  | driverConflict signal first second =>
    s!"signal `{signal}` is driven by both {first} and {second}"
  | missingLowering special => s!"no lowering available for special {special}"
  | loweringLostPort special port => s!"lowering of {special} no longer drives output port `{port}`"
  | loweringDidNotConverge rounds => s!"special lowering did not converge after {rounds} rounds"
  | duplicatePort owner port => s!"`{owner}` already has a port named `{port}`"
  | duplicateSubmodule module name => s!"module `{module}` already has a submodule named `{name}`"
  | duplicateClockDomain domain => s!"clock domain `{domain}` is declared more than once"
  | unknownClockDomain domain => s!"clock domain `{domain}` is used but never declared"
  | resetLessDomain domain => s!"clock domain `{domain}` has no reset signal"
  | unknownFsmState fsm state => s!"FSM `{fsm}` has no state named `{state}`"
  | unloweredFsmStatement statement context => s!"`{statement}` used outside of an FSM in {context}"
  | unsupportedSpecial special reason => s!"special {special} is not supported: {reason}"
  | deniedWarning code message => s!"{code.text} denied by lint configuration: {message}"
  | duplicateCaseKey key => s!"duplicate case key {key}"
  | invalidLintConfig message => s!"invalid lint configuration: {message}"

/-- The components of a dotted module path. -/
def pathOf (path : String) : List String := (path.splitOn ".").filter (· ≠ "")

def origin : Fault → Origin
  | alreadyFinalized module => { path := pathOf module }
  | anonymousDomainCollision module domain => { path := pathOf module, item := some domain }
  | hierarchyTooDeep path _ => { path := pathOf path }
  | duplicateSubmodule module name => { path := pathOf module, item := some name }
  | driverConflict signal _ _ => .ofItem signal
  | duplicateClockDomain domain => .ofItem domain
  | unknownClockDomain domain => .ofItem domain
  | resetLessDomain domain => .ofItem domain
  | unknownFsmState fsm state => { path := pathOf fsm, item := some state }
  | duplicatePort owner port => .ofItem s!"{owner}.{port}"
  | _ => .unknown

def notes : Fault → List String
  | driverConflict .. =>
    ["a signal must have exactly one driving clock domain or be combinational"]
  | _ => []

def help : Fault → List String
  | missingLowering .. =>
    ["supply a lowering for this special kind in the overrides passed to `convert`"]
  | anonymousDomainCollision .. => ["give the submodules names so their domains can be renamed"]
  | invalidLintConfig .. => ["lint codes look like `W304`; run `kiln check-config` on the file"]
  | _ => []

def toDiagnostic (f : Fault) : Diagnostic :=
  { severity := .error, code := f.code, message := f.message, origin := f.origin
    notes := f.notes, help := f.help }

end Fault

/-- A computation that draws fresh identities and can find a fault. -/
abbrev Build := ExceptT Fault (StateM Supply)

end Gateware
