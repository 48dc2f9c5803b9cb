import Gateware.Expr.Ref
import Gateware.Stmt.Basic

/-!
# Replacing in statements

Replacing the values of statements, and replacing statements by other statements.
-/
namespace Gateware.Stmt

mutual
/-- Apply `f` to every value. -/
def mapExprs (f : Expr → Expr) : Stmt → Stmt
  | .assign lhs rhs => .assign (f lhs) (f rhs)
  | .branch cond yes no => .branch (f cond) (mapExprsOf f yes) (mapExprsOf f no)
  | .select test arms => .select (f test) (mapExprsOfArms f arms)
  | .nextState s => .nextState s
  | .nextValue target value => .nextValue (f target) (f value)

def mapExprsOf (f : Expr → Expr) : List Stmt → List Stmt
  | [] => []
  | s :: ss => s.mapExprs f :: mapExprsOf f ss

def mapExprsOfArms (f : Expr → Expr) : Arms → Arms
  | .done => .done
  | .otherwise body => .otherwise (mapExprsOf f body)
  | .arm key body rest => .arm key (mapExprsOf f body) (mapExprsOfArms f rest)
end

/-- The same statements about renamed domains. -/
def renameDomains (f : String → String) (ss : List Stmt) : List Stmt :=
  mapExprsOf (Expr.renameDomains f) ss

mutual
/-- Put `f` of a statement in its place, after doing so in its bodies. -/
def replace {m : Type → Type} [Monad m] (f : Stmt → m (List Stmt)) : Stmt → m (List Stmt)
  | .assign lhs rhs => f (.assign lhs rhs)
  | .branch cond yes no => do
    let yes ← replaceOf f yes
    let no ← replaceOf f no
    f (.branch cond yes no)
  | .select test arms => do
    let arms ← replaceOfArms f arms
    f (.select test arms)
  | .nextState s => f (.nextState s)
  | .nextValue target value => f (.nextValue target value)

def replaceOf {m : Type → Type} [Monad m] (f : Stmt → m (List Stmt)) :
    List Stmt → m (List Stmt)
  | [] => pure []
  | s :: ss => do
    let s ← replace f s
    let ss ← replaceOf f ss
    pure (s ++ ss)

def replaceOfArms {m : Type → Type} [Monad m] (f : Stmt → m (List Stmt)) : Arms → m Arms
  | .done => pure .done
  | .otherwise body => do
    let body ← replaceOf f body
    pure (.otherwise body)
  | .arm key body rest => do
    let body ← replaceOf f body
    let rest ← replaceOfArms f rest
    pure (.arm key body rest)
end

end Gateware.Stmt
