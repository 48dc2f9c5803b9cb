import Gateware.Ordered.Map
import Gateware.Shape

/-!
# Signals

A signal is a named wire or register. Its identity is a number handed out when it is created, so
signals are ordered by age; two signals may share a name. The supply of fresh numbers is threaded
explicitly.
-/
namespace Gateware

/-- Digits behind a text can be read back. -/
theorem eq_of_append_toString {text : String} {i j : Nat}
    (same : text ++ toString i = text ++ toString j) : i = j := by
  have letters := congrArg String.toList same
  rw [String.toList_append, String.toList_append] at letters
  have numbers := congrArg (Nat.ofDigitChars 10 · 0) (List.append_cancel_left letters)
  simpa [Nat.toString_eq_ofList_toDigits] using numbers

/-- The identity of a signal. -/
structure SignalId where
  index : Nat
deriving DecidableEq, Repr, Inhabited

/-- The identity of a cell. -/
structure CellId where
  index : Nat
deriving DecidableEq, Repr, Inhabited

def SignalId.text (i : SignalId) : String := s!"s{i.index}"

def CellId.text (i : CellId) : String := s!"sp{i.index}"

def CellId.order : CellId → CellId → Ordering := compareOn (·.index)

instance : Ord CellId := ⟨CellId.order⟩

instance : Std.TransOrd CellId :=
  inferInstanceAs (Std.TransCmp (compareOn (·.index : CellId → Nat)))

instance : Std.LawfulEqOrd CellId where
  eq_of_compare {a b} h := by
    have : a.index = b.index := Std.LawfulEqOrd.eq_of_compare h
    cases a; cases b; simp_all

/-- A named wire or register. -/
structure Signal where
  id : SignalId
  name : String
  shape : Shape
  reset : Int
  resetLess : Bool
deriving DecidableEq, Repr, Inhabited

namespace Signal

/-- By age. Signals of one number are one signal, so that age decides (`order_eq_age`); the
remaining parts only make the order total on all records. -/
def order : Signal → Signal → Ordering :=
  compareLex (compareOn (·.id.index)) <| compareLex (compareOn (·.name)) <|
  compareLex (compareOn (·.shape.width)) <| compareLex (compareOn (·.shape.signed)) <|
  compareLex (compareOn (·.reset)) (compareOn (·.resetLess))

instance : Ord Signal := ⟨order⟩

instance : Std.TransOrd Signal := by
  unfold Std.TransOrd
  show Std.TransCmp order
  unfold order
  infer_instance

instance : Std.LawfulEqOrd Signal where
  eq_of_compare {a b} h := by
    change order a b = .eq at h
    simp only [order, compareLex_eq_eq, compareOn, Std.LawfulEqOrd.compare_eq_iff_eq] at h
    obtain ⟨⟨ia⟩, na, ⟨wa, sa⟩, ra, la⟩ := a
    obtain ⟨⟨ib⟩, nb, ⟨wb, sb⟩, rb, lb⟩ := b
    simp_all

/-- Where a number stands for one signal only, signals compare as their numbers do. -/
theorem order_eq_age {a b : Signal} (one : a.id = b.id → a = b) :
    compare a b = compare a.id.index b.id.index := by
  cases age : compare a.id.index b.id.index with
  | lt | gt =>
    change order a b = _
    simp only [order, compareLex, compareOn, age, Ordering.then]
  | eq =>
    rw [one (congrArg SignalId.mk (Std.LawfulEqOrd.eq_of_compare age))]
    exact Std.ReflOrd.compare_self

/-- An unsigned signal of a given number that comes out of reset with zero. -/
def wire (index : Nat) (name : String) (width : Nat) : Signal :=
  ⟨⟨index⟩, name, .unsigned width, 0, false⟩

def width (s : Signal) : Nat := s.shape.width

def signed (s : Signal) : Bool := s.shape.signed

/-- The same signal coming out of reset with `v`. For signals in the making: a signal in use and
the result have one number. -/
def withReset (s : Signal) (v : Int) : Signal := { s with reset := s.shape.wrap v }

/-- The same signal left alone by resets. -/
def withoutReset (s : Signal) : Signal := { s with resetLess := true }

/-- The value the signal has out of reset. -/
def resetValue (s : Signal) : Int := s.shape.wrap s.reset

/-- For instance `(count unsigned(4))`. -/
def text (s : Signal) : String := s!"({s.name} {s.shape.text})"

end Signal

/-- The numbers not yet used as identities. -/
structure Supply where
  nextSignal : Nat := 0
  nextCell : Nat := 0
deriving Repr, Inhabited

namespace Supply

/-- The supply past the numbers of signals that are there already. -/
def past (u : Supply) (used : List Signal) : Supply :=
  { u with nextSignal := used.foldr (fun s next => max next (s.id.index + 1)) u.nextSignal }

theorem lt_past (u : Supply) {used : List Signal} {s : Signal} (hs : s ∈ used) :
    s.id.index < (u.past used).nextSignal := by
  induction used with
  | nil => cases hs
  | cons t used ih =>
    change s.id.index < max (u.past used).nextSignal (t.id.index + 1)
    rcases List.mem_cons.mp hs with rfl | hs
    · omega
    · have := ih hs
      omega

end Supply

/-- Create a signal that resets to zero. -/
def Signal.fresh (name : String) (shape : Shape) : StateM Supply Signal :=
  modifyGet fun s =>
    (⟨⟨s.nextSignal⟩, name, shape, 0, false⟩, { s with nextSignal := s.nextSignal + 1 })

/-- Create a signal with the shape, reset value and reset behaviour of another. -/
def Signal.freshLike (name : String) (other : Signal) : StateM Supply Signal := do
  let s ← Signal.fresh name other.shape
  return { s with reset := other.reset, resetLess := other.resetLess }

/-- Draw the identity of a new cell. -/
def CellId.fresh : StateM Supply CellId :=
  modifyGet fun s => (⟨s.nextCell⟩, { s with nextCell := s.nextCell + 1 })

end Gateware
