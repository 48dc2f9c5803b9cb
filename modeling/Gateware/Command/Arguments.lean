/-!
# Command line arguments

Sorting arguments into switches with their values and plain arguments. A switch is given as `--name`
or by its letter; letters share a dash. Its value follows or is attached, and after `--` everything
is plain.
-/
namespace Gateware.Command

/-- How many values a switch takes each time. -/
inductive Takes
  | none
  | one
  | several
deriving DecidableEq, Repr

structure Switch where
  name : String
  letter : Option Char := none
  takes : Takes := .one
deriving DecidableEq, Repr

/-- What one level of a command line may hold. -/
structure Grammar where
  switches : List Switch
  /-- The number of plain arguments. -/
  plain : Nat := 0
  /-- The words that end this level and start the next. -/
  commands : List String := []

/-- The arguments found so far. -/
structure Found where
  switches : List (String × List String) := []
  plain : List String := []

namespace Found

def has (f : Found) (name : String) : Bool := f.switches.any (·.1 = name)

def values (f : Found) (name : String) : List String :=
  (f.switches.filter (·.1 = name)).flatMap (·.2)

def value? (f : Found) (name : String) : Option String := (f.values name).head?

/-- Note a switch with its values. Only one that takes several can be repeated. -/
def note (f : Found) (s : Switch) (values : List String) : Option Found :=
  if s.takes ≠ .several && f.has s.name then none
  else some { f with switches := f.switches ++ [(s.name, values)] }

/-- Note a plain argument if there is room for it. -/
def place (g : Grammar) (f : Found) (a : String) : Option Found :=
  if f.plain.length < g.plain then some { f with plain := f.plain ++ [a] } else none

end Found

/-- The switch that the next argument may be a value of. -/
inductive Waiting
  | nothing
  /-- It has to be one. -/
  | value (s : Switch)
  /-- It is one unless it looks like a switch. -/
  | more (s : Switch)

/-- Read the letters after a dash. -/
def letters (g : Grammar) (f : Found) : List Char → Option (Found × Waiting)
  | [] => some (f, .nothing)
  | c :: cs => do
    let s ← g.switches.find? (·.letter = some c)
    if s.takes = .none then letters g (← f.note s []) cs
    else
      match cs with
      | [] => return (f, .value s)
      | '=' :: v => return (← f.note s [String.ofList v], .nothing)
      | v => return (← f.note s [String.ofList v], .nothing)

/-- Read the name after two dashes, and the value after an equals sign. -/
def named (g : Grammar) (f : Found) (cs : List Char) : Option (Found × Waiting) := do
  let s ← g.switches.find? (·.name = String.ofList (cs.takeWhile (· ≠ '=')))
  match s.takes, cs.dropWhile (· ≠ '=') with
  | .none, [] => return (← f.note s [], .nothing)
  | .none, _ => none
  | _, [] => return (f, .value s)
  | _, _ :: v => return (← f.note s [String.ofList v], .nothing)

/-- Sort arguments up to the next command, which is left with what follows it. -/
def scan (g : Grammar) : Waiting → Found → List String → Option (Found × List String)
  | .value _, _, [] => none
  | _, f, [] => some (f, [])
  | waiting, f, a :: rest =>
    match a.toList, waiting with
    | '-' :: _ :: _, .value _ => none
    | ['-', '-'], _ => do return (← rest.foldlM (Found.place g) f, [])
    | '-' :: '-' :: cs, _ => do
      let (f, waiting) ← named g f cs
      scan g waiting f rest
    | '-' :: c :: cs, _ => do
      let (f, waiting) ← letters g f (c :: cs)
      scan g waiting f rest
    | _, .value s => do
      scan g (if s.takes = .several then .more s else .nothing) (← f.note s [a]) rest
    | _, .more s => do scan g (.more s) (← f.note s [a]) rest
    | _, .nothing =>
      if a ∈ g.commands then some (f, a :: rest) else do scan g .nothing (← f.place g a) rest

end Gateware.Command
