import Gateware.Clock

/-!
# Expressions

Hardware values as trees over signals and literals. Equality is equality of trees.
-/
namespace Gateware

/-- A number with an explicit shape. -/
structure Literal where
  value : Int
  shape : Shape
deriving DecidableEq, Repr, Inhabited

namespace Literal

/-- A number in its narrowest shape. -/
def minimal (v : Int) : Literal := ⟨v, .ofValue v⟩

/-- A number cut down to a shape. -/
def sized (v : Int) (s : Shape) : Literal := ⟨s.wrap v, s⟩

end Literal

inductive UnaryOp
  | invert
  | neg
deriving DecidableEq, Repr

inductive BinaryOp
  | add
  | sub
  | mul
  | and
  | or
  | xor
  | shl
  | shr
  | eq
  | ne
  | lt
  | le
  | gt
  | ge
deriving DecidableEq, Repr

namespace BinaryOp

def isComparison : BinaryOp → Bool
  | eq | ne | lt | le | gt | ge => true
  | _ => false

def isShift : BinaryOp → Bool
  | shl | shr => true
  | _ => false

def symbol : BinaryOp → String
  | add => "+"
  | sub => "-"
  | mul => "*"
  | and => "&"
  | or => "|"
  | xor => "^"
  | shl => "<<"
  | shr => ">>"
  | eq => "=="
  | ne => "!="
  | lt => "<"
  | le => "<="
  | gt => ">"
  | ge => ">="

end BinaryOp

/-- A hardware value. -/
inductive Expr
  | literal (c : Literal)
  | signal (s : Signal)
  | ref (r : DomainRef)
  | unary (op : UnaryOp) (operand : Expr)
  | binary (op : BinaryOp) (lhs rhs : Expr)
  /-- Bits `start` up to but not including `stop`. -/
  | slice (value : Expr) (start stop : Nat)
  /-- Parts side by side, the first one lowest. -/
  | concat (parts : List Expr)
  | replicate (value : Expr) (count : Nat)
  /-- The choice that the selector counts to; past the end, the last one. -/
  | mux (selector : Expr) (choices : List Expr)
deriving Repr, Inhabited

namespace Expr

/-- Induction over an expression: of its parts the statement may be assumed. -/
@[elab_as_elim, induction_eliminator]
theorem induction {motive : Expr → Prop} (literal : ∀ c, motive (.literal c))
    (signal : ∀ s, motive (.signal s)) (ref : ∀ r, motive (.ref r))
    (unary : ∀ op a, motive a → motive (.unary op a))
    (binary : ∀ op a b, motive a → motive b → motive (.binary op a b))
    (slice : ∀ a i j, motive a → motive (.slice a i j))
    (concat : ∀ ps, (∀ p ∈ ps, motive p) → motive (.concat ps))
    (replicate : ∀ a n, motive a → motive (.replicate a n))
    (mux : ∀ s cs, motive s → (∀ c ∈ cs, motive c) → motive (.mux s cs)) (e : Expr) : motive e :=
  @Expr.rec motive (fun ps => ∀ p ∈ ps, motive p) literal signal ref unary binary slice concat
    replicate mux (List.forall_mem_nil _) (fun _ _ hp hps => List.forall_mem_cons.mpr ⟨hp, hps⟩) e

mutual
/-- Whether two trees are the same. -/
def same : Expr → Expr → Bool
  | literal c, literal d => c = d
  | signal s, signal t => s = t
  | ref r, ref q => r = q
  | unary o a, unary p b => o = p && a.same b
  | binary o a b, binary p c d => o = p && a.same c && b.same d
  | slice a i j, slice b k l => i = k && j = l && a.same b
  | concat ps, concat qs => sameList ps qs
  | replicate a m, replicate b n => m = n && a.same b
  | mux s ps, mux t qs => s.same t && sameList ps qs
  | _, _ => false

def sameList : List Expr → List Expr → Bool
  | [], [] => true
  | p :: ps, q :: qs => p.same q && sameList ps qs
  | _, _ => false
end

theorem sameList_iff {ps : List Expr} (each : ∀ p ∈ ps, ∀ q, p.same q = true ↔ p = q)
    (qs : List Expr) : sameList ps qs = true ↔ ps = qs := by
  induction ps generalizing qs with
  | nil => cases qs <;> simp [sameList]
  | cons p ps ih => cases qs <;> simp_all [sameList]

theorem same_iff (a b : Expr) : a.same b = true ↔ a = b := by
  induction a generalizing b with
  | concat ps ih => cases b <;> simp [same, sameList_iff ih]
  | mux s ps is ih => cases b <;> simp [same, is, sameList_iff ih]
  | _ => cases b <;> simp_all [same, and_comm, and_assoc]

instance : DecidableEq Expr := fun a b => decidable_of_iff _ (same_iff a b)

instance : Coe Signal Expr := ⟨.signal⟩

/-- An integer in its narrowest shape. -/
def int (v : Int) : Expr := .literal (.minimal v)

/-- An integer cut down to a shape. -/
def sized (v : Int) (s : Shape) : Expr := .literal (.sized v s)

/-- One bit. -/
def bool (b : Bool) : Expr := .sized b.toNat (.unsigned 1)

def clock (domain : String) : Expr := .ref (.clock domain)

/-- The reset of a domain that must have one. -/
def reset (domain : String) : Expr := .ref (.reset domain false)

/-- The reset of a domain, zero if the domain has none. -/
def resetOrZero (domain : String) : Expr := .ref (.reset domain true)

/-- `cond ? yes : no`. -/
def select (cond yes no : Expr) : Expr := .mux cond [no, yes]

def eq (a b : Expr) : Expr := .binary .eq a b

def ge (a b : Expr) : Expr := .binary .ge a b

/-- One bit, set when any bit of `a` is. -/
def truth (a : Expr) : Expr := .binary .ne a (.int 0)

def signal? : Expr → Option Signal
  | .signal s => some s
  | _ => none

def literal? : Expr → Option Literal
  | .literal c => some c
  | _ => none

mutual
/-- For instance `(a + ~b[0:4])`. -/
def text : Expr → String
  | .literal c => toString c.value
  | .signal s => s.name
  | .ref r => r.text
  | .unary .invert a => "~" ++ a.text
  | .unary .neg a => "-" ++ a.text
  | .binary op a b => "(" ++ a.text ++ " " ++ op.symbol ++ " " ++ b.text ++ ")"
  | .slice a i j => a.text ++ s!"[{i}:{j}]"
  | .concat ps => "\x7b" ++ ", ".intercalate (texts ps) ++ "\x7d"
  | .replicate a n => "\x7b" ++ toString n ++ "\x7b" ++ a.text ++ "\x7d\x7d"
  | .mux s cs => s.text ++ "?[" ++ ", ".intercalate (texts cs) ++ "]"

def texts : List Expr → List String
  | [] => []
  | p :: ps => p.text :: texts ps
end

theorem texts_eq_map (ps : List Expr) : texts ps = ps.map text := by
  induction ps with
  | nil => rfl
  | cons p ps ih => rw [texts, ih, List.map_cons]

end Expr

end Gateware
