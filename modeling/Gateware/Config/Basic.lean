import Gateware.Diagnostic.Lint

/-!
# Configuration

The settings of a conversion, with their defaults, and what makes them unusable.
-/
namespace Gateware

/-- How the first words of a memory are written out. -/
inductive MemoryInit
  /-- Word by word in the source. -/
  | inline
  /-- In a data file beside the source. -/
  | file
deriving DecidableEq, Repr

structure Config.Codegen where
  /-- The name of the written module. -/
  name : String := "top"
  /-- Declare domains that are used but not declared, with their clock and reset as inputs. -/
  createClockDomains : Bool := true
  /-- Leave out the starting values of registers. -/
  asicSyntax : Bool := false
  memoryInit : MemoryInit := .inline
  /-- Start with a line that says the source is generated. -/
  header : Bool := true
deriving DecidableEq, Repr

structure Config.Elaborate where
  /-- The domain of clocked logic that names none. -/
  defaultDomain : String := "sys"
  /-- The deepest hierarchy allowed. -/
  maxDepth : Nat := 256
deriving DecidableEq, Repr

structure Config.Lints where
  /-- Codes of warnings that stop a conversion. -/
  deny : List String := []
  /-- Codes of warnings to drop. -/
  allow : List String := []
deriving DecidableEq, Repr

structure Config where
  codegen : Config.Codegen := {}
  elaborate : Config.Elaborate := {}
  lint : Config.Lints := {}
deriving DecidableEq, Repr

namespace Config

/-- What can be wrong with a configuration. -/
inductive Problem
  | unreadable (reason : String)
  | unparsable (reason : String)
  | missing (setting : String)
  | invalid (reason : String)
deriving DecidableEq, Repr

def Problem.message : Problem → String
  | unreadable reason => s!"failed to read configuration: {reason}"
  | unparsable reason => s!"failed to parse configuration: {reason}"
  | missing setting => s!"missing required field: {setting}"
  | invalid reason => s!"validation error: {reason}"

/-- Read every text as a code; `setting` is where they stand. -/
def codes (setting : String) (texts : List String) : Except Problem (List Code) :=
  texts.mapM fun t =>
    match Code.ofString? t with
    | some c => .ok c
    | none => .error (.invalid s!"{setting}: {Code.invalidText t}")

def Lints.policy (l : Lints) : Except Problem Lint.Policy := do
  let deny ← codes "lint.deny" l.deny
  let allow ← codes "lint.allow" l.allow
  return { deny, allow }

/-- A letter or underscore, then letters, digits, underscores and dollar signs, all of them
ASCII. -/
def isIdentifier (name : String) : Bool :=
  match name.toList with
  | [] => false
  | c :: cs =>
    (c.isAlpha || c = '_') && cs.all fun c => c.isAlphanum || c = '_' || c = '$'

/-- Settings that can be used together. The first problem is reported: names and limits, then codes,
then codes both denied and allowed. -/
def validate (c : Config) : Except Problem Unit := do
  if c.codegen.name.isEmpty then throw (.missing "codegen.name")
  if !isIdentifier c.codegen.name then
    throw (.invalid s!"codegen.name `{c.codegen.name}` is not a legal Verilog identifier")
  if c.elaborate.defaultDomain.isEmpty then throw (.missing "elaborate.default_domain")
  if c.elaborate.maxDepth = 0 then throw (.invalid "elaborate.max_depth must be positive")
  let _ ← c.lint.policy
  match c.lint.allow.find? (c.lint.deny.contains ·) with
  | some both => throw (.invalid s!"lint code {both} is both denied and allowed")
  | none => return ()

end Config

end Gateware
