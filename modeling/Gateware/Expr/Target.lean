import Gateware.Expr.Basic

/-!
# Expressions as assignment targets

A target is a signal, a domain's reset, or slices, concatenations and choices of targets. Assigning
to a target drives the signals in it and reads the selectors of its choices.
-/
namespace Gateware.Expr

mutual
/-- Whether the expression may stand on the left of an assignment. -/
def isTarget : Expr → Bool
  | .signal _ => true
  | .ref (.reset _ _) => true
  | .slice a _ _ => a.isTarget
  | .concat ps => !ps.isEmpty && areTargets ps
  | .mux _ cs => !cs.isEmpty && areTargets cs
  | _ => false

def areTargets : List Expr → Bool
  | [] => true
  | p :: ps => p.isTarget && areTargets ps
end

theorem areTargets_eq (ps : List Expr) : areTargets ps = (ps.map isTarget).all id := by
  induction ps with
  | nil => rfl
  | cons p ps ih => rw [areTargets, ih, List.map_cons, List.all_cons, id]

/-- The parts of a target are targets. -/
theorem isTarget_of_mem {ps : List Expr} (target : (concat ps).isTarget = true) :
    ∀ p ∈ ps, p.isTarget = true := by
  simp only [isTarget, areTargets_eq, Bool.and_eq_true] at target
  simpa using target.2

mutual
/-- The signals an assignment to the expression drives, with repetitions. -/
def drives : Expr → List Signal
  | .signal s => [s]
  | .slice a _ _ => a.drives
  | .concat ps => drivesOf ps
  | .mux _ cs => drivesOf cs
  | _ => []

def drivesOf : List Expr → List Signal
  | [] => []
  | p :: ps => p.drives ++ drivesOf ps
end

theorem drivesOf_eq (ps : List Expr) : drivesOf ps = ps.flatMap drives := by
  induction ps with
  | nil => rfl
  | cons p ps ih => rw [drivesOf, ih, List.flatMap_cons]

mutual
/-- Every signal in the expression, with repetitions. -/
def mentions : Expr → List Signal
  | .literal _ => []
  | .signal s => [s]
  | .ref _ => []
  | .unary _ a => a.mentions
  | .binary _ a b => a.mentions ++ b.mentions
  | .slice a _ _ => a.mentions
  | .concat ps => mentionsOf ps
  | .replicate a _ => a.mentions
  | .mux s cs => s.mentions ++ mentionsOf cs

def mentionsOf : List Expr → List Signal
  | [] => []
  | p :: ps => p.mentions ++ mentionsOf ps
end

theorem mentionsOf_eq (ps : List Expr) : mentionsOf ps = ps.flatMap mentions := by
  induction ps with
  | nil => rfl
  | cons p ps ih => rw [mentionsOf, ih, List.flatMap_cons]

mutual
/-- The signals an assignment to the expression reads: those in the selectors of its choices. -/
def selectors : Expr → List Signal
  | .slice a _ _ => a.selectors
  | .concat ps => selectorsOf ps
  | .mux s cs => s.mentions ++ selectorsOf cs
  | _ => []

def selectorsOf : List Expr → List Signal
  | [] => []
  | p :: ps => p.selectors ++ selectorsOf ps
end

theorem selectorsOf_eq (ps : List Expr) : selectorsOf ps = ps.flatMap selectors := by
  induction ps with
  | nil => rfl
  | cons p ps ih => rw [selectorsOf, ih, List.flatMap_cons]

/-- The signals an assignment to the expression drives. -/
def targets (e : Expr) : OrdSet Signal := .ofList e.drives

/-- Every signal in the expression. -/
def signals (e : Expr) : OrdSet Signal := .ofList e.mentions

end Gateware.Expr
