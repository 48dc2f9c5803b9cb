import Gateware.Config.Basic
import Gateware.Toml.Document

/-!
# Reading settings

Settings stand in three tables. Those that are missing keep their defaults; a name that is no
setting or a value of the wrong kind is refused. A list in the place of a table gives the settings
in order.
-/
namespace Gateware.Config

open Toml

/-- The values of the named settings. -/
def fields? (names : List String) : Value → Option (String → Option Value)
  | .table _ es => if es.all (·.1 ∈ names) then some fun n => es.lookup n else none
  | .array vs => some fun n => vs[names.idxOf n]?
  | .tables earlier last =>
    some fun n => ((earlier ++ [last]).map (Value.table .header))[names.idxOf n]?
  | _ => none

def string? : Value → Option String
  | .string s => some s
  | _ => none

def bool? : Value → Option Bool
  | .boolean b => some b
  | _ => none

def nat? : Value → Option Nat
  | .integer (.ofNat n) => some n
  | _ => none

/-- One code, or a list of them. -/
def texts? : Value → Option (List String)
  | .string s => some [s]
  | .array vs => vs.mapM string?
  | _ => none

def memoryInitNamed? : String → Option MemoryInit
  | "inline" => some .inline
  | "file" => some .file
  | _ => none

/-- Whether nothing is in an array or table. -/
def isHollow : Value → Bool
  | .array vs => vs.isEmpty
  | .table _ es => es.isEmpty
  | _ => false

/-- A style is written as its name, or as a table whose only key is the name and holds nothing. -/
def memoryInit? : Value → Option MemoryInit
  | .string s => memoryInitNamed? s
  | .table _ [(k, v)] => if isHollow v then memoryInitNamed? k else none
  | _ => none

/-- The setting in a table, or else its default. -/
def setting {α : Type} (values : String → Option Value) (name : String) (read : Value → Option α)
    (fallback : α) : Option α :=
  match values name with
  | some v => read v
  | none => some fallback

def codegen? (v : Value) : Option Codegen := do
  let values ← fields? ["name", "create_clock_domains", "asic_syntax", "memory_init", "header"] v
  let base : Codegen := {}
  return { name := ← setting values "name" string? base.name
           createClockDomains := ← setting values "create_clock_domains" bool?
             base.createClockDomains
           asicSyntax := ← setting values "asic_syntax" bool? base.asicSyntax
           memoryInit := ← setting values "memory_init" memoryInit? base.memoryInit
           header := ← setting values "header" bool? base.header }

def elaborate? (v : Value) : Option Elaborate := do
  let values ← fields? ["default_domain", "max_depth"] v
  let base : Elaborate := {}
  return { defaultDomain := ← setting values "default_domain" string? base.defaultDomain
           maxDepth := ← setting values "max_depth" nat? base.maxDepth }

def lints? (v : Value) : Option Lints := do
  let values ← fields? ["deny", "allow"] v
  return { deny := ← setting values "deny" texts? [], allow := ← setting values "allow" texts? [] }

def ofValue? (v : Value) : Option Config := do
  let values ← fields? ["codegen", "elaborate", "lint"] v
  return { codegen := ← setting values "codegen" codegen? {}
           elaborate := ← setting values "elaborate" elaborate? {}
           lint := ← setting values "lint" lints? {} }

/-- The settings that a text spells, if they can be used. -/
def ofString (text : String) : Except Problem Config := do
  let some entries := parse? text | throw (.unparsable "not a TOML document")
  let some config := ofValue? (.table .header entries) |
    throw (.unparsable "unknown setting or wrong kind of value")
  config.validate
  return config

end Gateware.Config
