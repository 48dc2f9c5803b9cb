import Gateware.Diagnostic.Code

/-!
# Diagnostics

A diagnostic is a message with a severity, a code, the place it is about, and notes. A log collects
them in the order they were emitted and counts the errors it has ever seen.
-/
namespace Gateware

inductive Severity
  | help
  | note
  | warning
  | error
deriving DecidableEq, Repr

namespace Severity

def word : Severity → String
  | .help => "help"
  | .note => "note"
  | .warning => "warning"
  | .error => "error"

/-- The severity as a proper name. -/
def name : Severity → String
  | .help => "Help"
  | .note => "Note"
  | .warning => "Warning"
  | .error => "Error"

/-- The escape sequence that turns on the severity's colour. -/
def color : Severity → String
  | .help => "\x1b[36m"
  | .note => "\x1b[34m"
  | .warning => "\x1b[33m"
  | .error => "\x1b[31m"

end Severity

/-- The place in the module hierarchy a diagnostic is about. -/
structure Origin where
  path : List String := []
  item : Option String := none
deriving DecidableEq, Repr

namespace Origin

/-- The whole design, nothing in particular. -/
def unknown : Origin := {}

def ofItem (item : String) : Origin := { item := some item }

def isUnknown (o : Origin) : Bool := o.path.isEmpty && o.item.isNone

def text (o : Origin) : String :=
  (if o.path.isEmpty then "<top>" else ".".intercalate o.path) ++
    match o.item with
    | some item => s!" `{item}`"
    | none => ""

end Origin

structure Diagnostic where
  severity : Severity
  code : Code
  message : String
  origin : Origin
  notes : List String := []
  help : List String := []
deriving DecidableEq, Repr

/-- Diagnostics in the order they were emitted, with the number of errors ever emitted. -/
structure Log where
  entries : List Diagnostic := []
  errors : Nat := 0
deriving DecidableEq, Repr

namespace Log

def emit (log : Log) (d : Diagnostic) : Log :=
  { entries := log.entries ++ [d]
    errors := if d.severity = .error then log.errors + 1 else log.errors }

/-- Forget the diagnostics, but not that there were errors. -/
def drain (log : Log) : Log := { log with entries := [] }

def hasErrors (log : Log) : Bool := decide (0 < log.errors)

end Log

end Gateware
