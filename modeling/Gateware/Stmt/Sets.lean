import Gateware.Expr.Target
import Gateware.Stmt.Basic

/-!
# What statements read and drive

Values, targets, and the sets of signals that statements assign and read.
-/
namespace Gateware.Stmt

mutual
/-- The values of a statement and of the statements in it, in writing order. -/
def exprs : Stmt → List Expr
  | .assign lhs rhs => [lhs, rhs]
  | .branch cond yes no => cond :: (exprsOf yes ++ exprsOf no)
  | .select test arms => test :: exprsOfArms arms
  | .nextState _ => []
  | .nextValue target value => [target, value]

def exprsOf : List Stmt → List Expr
  | [] => []
  | s :: ss => s.exprs ++ exprsOf ss

def exprsOfArms : Arms → List Expr
  | .done => []
  | .otherwise body => exprsOf body
  | .arm _ body rest => exprsOf body ++ exprsOfArms rest
end

mutual
/-- The targets of a statement and of the statements in it, registered loads included. -/
def targets : Stmt → List Expr
  | .assign lhs _ => [lhs]
  | .branch _ yes no => targetsOf yes ++ targetsOf no
  | .select _ arms => targetsOfArms arms
  | .nextState _ => []
  | .nextValue target _ => [target]

def targetsOf : List Stmt → List Expr
  | [] => []
  | s :: ss => s.targets ++ targetsOf ss

def targetsOfArms : Arms → List Expr
  | .done => []
  | .otherwise body => targetsOf body
  | .arm _ body rest => targetsOf body ++ targetsOfArms rest
end

mutual
/-- The signals read by a statement, with repetitions: right-hand sides, conditions, tests, and the
selectors of targets. -/
def sources : Stmt → List Signal
  | .assign lhs rhs => lhs.selectors ++ rhs.mentions
  | .branch cond yes no => cond.mentions ++ (sourcesOf yes ++ sourcesOf no)
  | .select test arms => test.mentions ++ sourcesOfArms arms
  | .nextState _ => []
  | .nextValue target value => target.selectors ++ value.mentions

def sourcesOf : List Stmt → List Signal
  | [] => []
  | s :: ss => s.sources ++ sourcesOf ss

def sourcesOfArms : Arms → List Signal
  | .done => []
  | .otherwise body => sourcesOf body
  | .arm _ body rest => sourcesOf body ++ sourcesOfArms rest
end

mutual
/-- The assignments, moves and registered loads of a statement, in writing order. -/
def leaves : Stmt → List Stmt
  | .branch _ yes no => leavesOf yes ++ leavesOf no
  | .select _ arms => leavesOfArms arms
  | .assign lhs rhs => [.assign lhs rhs]
  | .nextState s => [.nextState s]
  | .nextValue target value => [.nextValue target value]

def leavesOf : List Stmt → List Stmt
  | [] => []
  | s :: ss => s.leaves ++ leavesOf ss

def leavesOfArms : Arms → List Stmt
  | .done => []
  | .otherwise body => leavesOf body
  | .arm _ body rest => leavesOf body ++ leavesOfArms rest
end

/-- The signals that statements assign. -/
def assigned (ss : List Stmt) : OrdSet Signal := .ofList ((targetsOf ss).flatMap Expr.drives)

/-- The signals that statements read. -/
def read (ss : List Stmt) : OrdSet Signal := .ofList (sourcesOf ss)

mutual
/-- The first move or registered load, which only a state machine gives a meaning. -/
def sugar? : Stmt → Option Stmt
  | .assign .. => none
  | .branch _ yes no => (sugarOf? yes).or (sugarOf? no)
  | .select _ arms => sugarOfArms? arms
  | .nextState s => some (.nextState s)
  | .nextValue t v => some (.nextValue t v)

def sugarOf? : List Stmt → Option Stmt
  | [] => none
  | s :: ss => s.sugar?.or (sugarOf? ss)

def sugarOfArms? : Arms → Option Stmt
  | .done => none
  | .otherwise body => sugarOf? body
  | .arm _ body rest => (sugarOf? body).or (sugarOfArms? rest)
end

/-- The first target that cannot be driven. -/
def targetFault? (ss : List Stmt) : Option Fault :=
  ((targetsOf ss).find? (!·.isTarget)).map fun t => .invalidAssignTarget t.text

end Gateware.Stmt
