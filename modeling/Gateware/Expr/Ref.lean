import Gateware.Expr.Basic

/-!
# Domain references in expressions

The clocks and resets an expression mentions by domain name, and their replacement.
-/
namespace Gateware.Expr

mutual
/-- The references of the expression from left to right. -/
def refs : Expr → List DomainRef
  | .literal _ => []
  | .signal _ => []
  | .ref r => [r]
  | .unary _ a => a.refs
  | .binary _ a b => a.refs ++ b.refs
  | .slice a _ _ => a.refs
  | .concat ps => refsOf ps
  | .replicate a _ => a.refs
  | .mux s cs => s.refs ++ refsOf cs

def refsOf : List Expr → List DomainRef
  | [] => []
  | p :: ps => p.refs ++ refsOf ps
end

theorem refsOf_eq (ps : List Expr) : refsOf ps = ps.flatMap refs := by
  induction ps with
  | nil => rfl
  | cons p ps ih => rw [refsOf, ih, List.flatMap_cons]

mutual
/-- Put `f r` in place of every reference `r`. -/
def bindRefs (f : DomainRef → Expr) : Expr → Expr
  | .literal c => .literal c
  | .signal s => .signal s
  | .ref r => f r
  | .unary op a => .unary op (a.bindRefs f)
  | .binary op a b => .binary op (a.bindRefs f) (b.bindRefs f)
  | .slice a i j => .slice (a.bindRefs f) i j
  | .concat ps => .concat (bindRefsOf f ps)
  | .replicate a n => .replicate (a.bindRefs f) n
  | .mux s cs => .mux (s.bindRefs f) (bindRefsOf f cs)

def bindRefsOf (f : DomainRef → Expr) : List Expr → List Expr
  | [] => []
  | p :: ps => p.bindRefs f :: bindRefsOf f ps
end

theorem bindRefsOf_eq_map (f : DomainRef → Expr) (ps : List Expr) :
    bindRefsOf f ps = ps.map (bindRefs f) := by
  induction ps with
  | nil => rfl
  | cons p ps ih => rw [bindRefsOf, ih, List.map_cons]

/-- The same expression about renamed domains. -/
def renameDomains (f : String → String) (e : Expr) : Expr := e.bindRefs fun r => .ref (r.rename f)

end Gateware.Expr
