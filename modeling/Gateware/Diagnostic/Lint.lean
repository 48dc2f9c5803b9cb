import Gateware.Diagnostic.Basic

/-!
# Lint policy

Which warnings are dropped and which stop the conversion. Errors are never affected.
-/
namespace Gateware.Lint

inductive Action
  | allow
  | warn
  | deny
deriving DecidableEq, Repr

def Action.name : Action → String
  | .allow => "Allow"
  | .warn => "Warn"
  | .deny => "Deny"

/-- The codes to deny and the codes to allow; denial is looked at first. -/
structure Policy where
  deny : List Code := []
  allow : List Code := []
deriving DecidableEq, Repr

def Policy.action (p : Policy) (c : Code) : Action :=
  if c.category ≠ .warning then .warn
  else if c ∈ p.deny then .deny
  else if c ∈ p.allow then .allow
  else .warn

/-- The diagnostics to report, and the first denied one. -/
def Policy.apply (p : Policy) (ds : List Diagnostic) : List Diagnostic × Option Diagnostic :=
  (ds.filter fun d => p.action d.code = .warn, ds.find? fun d => p.action d.code = .deny)

end Gateware.Lint
