import Gateware.Expr.Build

/-!
# Statements

What combinational and clocked lists hold. Later statements win over earlier ones. Moves between
states and registered loads only make sense inside a state machine, which replaces them.
-/
namespace Gateware

mutual
inductive Stmt
  | assign (lhs rhs : Expr)
  /-- Two ways, the first one if any bit of the condition is set. -/
  | branch (cond : Expr) (yes no : List Stmt)
  | select (test : Expr) (arms : Arms)
  /-- In a state machine: move to a state on the next clock edge. -/
  | nextState (state : String)
  /-- In a state machine: load a register on the next clock edge. -/
  | nextValue (target value : Expr)

/-- The arms of a selection: the first one whose key the test equals is taken. -/
inductive Arms
  | done
  | otherwise (body : List Stmt)
  | arm (key : Literal) (body : List Stmt) (rest : Arms)
end

namespace Stmt

/-- Induction over a list of statements: of the lists inside its first statement, of what is left
of its arms and of the statements that follow, the statement may be assumed. -/
@[elab_as_elim]
theorem listInduction {motive : List Stmt → Prop} (nil : motive [])
    (assign : ∀ lhs rhs ss, motive ss → motive (.assign lhs rhs :: ss))
    (branch : ∀ cond yes no ss, motive yes → motive no → motive ss →
      motive (.branch cond yes no :: ss))
    (done : ∀ test ss, motive ss → motive (.select test .done :: ss))
    (otherwise : ∀ test body ss, motive body → motive ss →
      motive (.select test (.otherwise body) :: ss))
    (arm : ∀ test key body rest ss, motive body → motive [.select test rest] → motive ss →
      motive (.select test (.arm key body rest) :: ss))
    (nextState : ∀ state ss, motive ss → motive (.nextState state :: ss))
    (nextValue : ∀ target value ss, motive ss → motive (.nextValue target value :: ss))
    (ss : List Stmt) : motive ss :=
  @Stmt.rec_1 (fun s => ∀ ss, motive ss → motive (s :: ss))
    (fun arms => ∀ test ss, motive ss → motive (.select test arms :: ss)) motive assign
    (fun cond yes no hyes hno ss => branch cond yes no ss hyes hno)
    (fun test _ harms => harms test) nextState nextValue done
    (fun body hbody test ss => otherwise test body ss hbody)
    (fun key body rest hbody hrest test ss =>
      arm test key body rest ss hbody (hrest test [] nil))
    nil (fun _ ss hs => hs ss) ss

mutual
/-- Whether two trees are the same. -/
def same : Stmt → Stmt → Bool
  | assign a b, assign c d => a = c && b = d
  | branch c a b, branch d a' b' => c = d && sameList a a' && sameList b b'
  | select t a, select u b => t = u && sameArms a b
  | nextState s, nextState t => s = t
  | nextValue a b, nextValue c d => a = c && b = d
  | _, _ => false

def sameList : List Stmt → List Stmt → Bool
  | [], [] => true
  | a :: as, b :: bs => a.same b && sameList as bs
  | _, _ => false

def sameArms : Arms → Arms → Bool
  | .done, .done => true
  | .otherwise a, .otherwise b => sameList a b
  | .arm k a as, .arm l b bs => k = l && sameList a b && sameArms as bs
  | _, _ => false
end

mutual
theorem same_iff (a b : Stmt) : a.same b = true ↔ a = b := by
  cases a <;> cases b <;> simp [same, sameList_iff, sameArms_iff, and_assoc]

theorem sameList_iff (as bs : List Stmt) : sameList as bs = true ↔ as = bs := by
  cases as <;> cases bs <;> simp [sameList, same_iff, sameList_iff]

theorem sameArms_iff (as bs : Arms) : sameArms as bs = true ↔ as = bs := by
  cases as <;> cases bs <;> simp [sameArms, sameList_iff, sameArms_iff, and_assoc]
end

instance : DecidableEq Stmt := fun a b => decidable_of_iff _ (same_iff a b)

instance : DecidableEq Arms := fun a b => decidable_of_iff _ (sameArms_iff a b)

instance : Inhabited Stmt := ⟨nextState ""⟩

instance : Inhabited Arms := ⟨.done⟩

/-- The kind of statement, as messages name it. -/
def kind : Stmt → String
  | assign .. => "Assign"
  | branch .. => "If"
  | select .. => "Case"
  | nextState _ => "NextState"
  | nextValue .. => "NextValue"

/-- Conditions tried in order, each one inside the last one's other branch. -/
def chain (cond : Expr) (body : List Stmt) (more : List (Expr × List Stmt))
    (otherwise : List Stmt) : Stmt :=
  .branch cond body (more.foldr (fun b rest => [.branch b.1 b.2 rest]) otherwise)

end Stmt

namespace Arms

/-- The keys and bodies in front, and the body for all other values. -/
def ofList (arms : List (Literal × List Stmt)) (otherwise : Option (List Stmt)) : Arms :=
  arms.foldr (fun a rest => .arm a.1 a.2 rest)
    (match otherwise with
    | none => .done
    | some body => .otherwise body)

/-- The arms with a key. -/
def cases : Arms → List (Literal × List Stmt)
  | done => []
  | otherwise _ => []
  | arm key body rest => (key, body) :: rest.cases

/-- The body for values without a key, if there is one. -/
def default? : Arms → Option (List Stmt)
  | done => none
  | otherwise body => some body
  | arm _ _ rest => rest.default?

end Arms

/-- A selection under construction. Its keys take the test's shape and differ from each other. -/
structure Selection where
  test : Expr
  arms : List (Literal × List Stmt) := []

namespace Selection

/-- Add an arm; a key that is already there once cut to the test's shape is refused. -/
def add (s : Selection) (key : Int) (body : List Stmt) : Except Fault Selection :=
  let key := Literal.sized key s.test.shape
  if s.arms.any (·.1.value = key.value) then .error (.duplicateCaseKey (toString key.value))
  else .ok { s with arms := s.arms ++ [(key, body)] }

def toStmt (s : Selection) (otherwise : Option (List Stmt)) : Stmt :=
  .select s.test (.ofList s.arms otherwise)

end Selection

end Gateware
