import Gateware.Proofs.Folding.Overwrite
import Gateware.Proofs.Folding.Run

/-!
# Choices that folding makes

Where a run takes one of several ways, folding puts a choice between expressions. Two constructs do
so: a branch, whose two ways meet in a choice by the condition, and an assignment to one of several
signals, which gives each of them a choice by a test of the selector.

## Main results

`folded_branch_iff`: a branch that assigns one signal on both ways is folded to the value that a run
leaves, unless the signal is wider than both values, one of them is signed, and the value taken does
not fit the signed shape of the choice.

`folded_choice_iff`: an assignment to one of several signals is folded to what a run does, unless
the selector is negative and the last signal, which a run then stores into, is to change.

`branch_value_lost` and `negative_choice_lost` are inputs where both fail.

## Proof strategy

A choice evaluates to the chosen value wrapped to the shape of the choice (`eval_merged`). For a
branch what is left is to compare two wrappings of one number (`wrap_wrap_eq_iff`). For several
signals the choice has the width of the signal, so that only the tests are left (`picks_count`).
-/
namespace Gateware

namespace Shape

/-! ### Numbers in wider shapes -/

/-- A number of a shape is a number of every wider signed shape. -/
theorem wrap_signedOf_of_lt {s : Shape} {v : Int} {w : Nat} (wrapped : s.wrap v = v)
    (wider : s.width < w) : (signedOf w).wrap v = v := by
  rw [wrap_eq_self_iff] at wrapped ⊢
  have all : 2 ^ s.width ≤ 2 ^ (w - 1) := Nat.pow_le_pow_right (by decide) (by omega)
  have half : 2 ^ (s.width - 1) ≤ 2 ^ (w - 1) := Nat.pow_le_pow_right (by decide) (by omega)
  have pos := Nat.two_pow_pos (w - 1)
  have some : ¬ w = 0 := by omega
  simp only [Holds, signedOf, some, if_false, if_true, Nat.one_shiftLeft] at wrapped ⊢
  split at wrapped
  · omega
  · split at wrapped <;> omega

theorem wrap_wrap_of_le {s t : Shape} (covered : s.width ≤ t.width) (v : Int) :
    s.wrap (t.wrap v) = s.wrap v := by
  refine s.wrap_congr ?_
  rw [← toBits_mod _ covered, t.toBits_wrap, toBits_mod _ covered]

/-- A number that is wrapped to `t` on its way to `s` arrives as it would without, unless `s` has
bits to spare and the number is not one of `t`. -/
theorem wrap_wrap_eq_iff {s t u : Shape} {v : Int} (wrapped : u.wrap v = v)
    (narrower : u.width ≤ t.width) :
    s.wrap (t.wrap v) = s.wrap v ↔ (t.width < s.width → t.Holds v) := by
  constructor
  · intro same wider
    -- Both numbers belong to the signed shape one bit wider than `t`, and have the same bits there.
    have first := wrap_signedOf_of_lt (t.wrap_wrap v) (Nat.lt_succ_self t.width)
    have second := wrap_signedOf_of_lt wrapped (Nat.lt_succ_of_le narrower)
    have bits : toBits (t.wrap v) s.width = toBits v s.width := by
      rw [← s.toBits_wrap (t.wrap v), same, s.toBits_wrap]
    have low : toBits (t.wrap v) (t.width + 1) = toBits v (t.width + 1) := by
      rw [← toBits_mod _ wider, bits, toBits_mod _ wider]
    exact wrap_eq_self_iff.mp (first.symm.trans ((wrap_congr _ low).trans second))
  · intro fits
    rcases Nat.lt_or_ge t.width s.width with wider | covered
    · rw [wrap_eq_self_iff.mpr (fits wider)]
    · exact wrap_wrap_of_le covered v

/-- A shape that is as wide as another one, and signed if the other one is, lacks only numbers of
the other shape that have the place of its sign. -/
theorem holds_iff_lt {t u : Shape} {v : Int} (holds : u.Holds v) (narrower : u.width ≤ t.width)
    (sign : u.signed = true → t.signed = true) :
    t.Holds v ↔ (t.signed = true → v < (2 ^ (t.width - 1) : Nat)) := by
  have all : 2 ^ u.width ≤ 2 ^ t.width := Nat.pow_le_pow_right (by decide) narrower
  have half : 2 ^ (u.width - 1) ≤ 2 ^ (t.width - 1) := Nat.pow_le_pow_right (by decide) (by omega)
  have pos := Nat.two_pow_pos (t.width - 1)
  have pos' := Nat.two_pow_pos t.width
  simp only [Holds, Nat.one_shiftLeft] at holds ⊢
  by_cases none : t.width = 0
  · rw [if_pos none]
    rw [if_pos (by omega)] at holds
    exact iff_of_true holds fun _ => by omega
  rw [if_neg none]
  cases signed : t.signed with
  | true =>
    simp only [if_true, forall_const]
    split at holds
    · omega
    · split at holds <;> omega
  | false =>
    have unsigned : u.signed = false := by
      rw [← Bool.not_eq_true]
      exact fun h => Bool.false_ne_true (signed.symm.trans (sign h))
    simp only [unsigned, Bool.false_eq_true, if_false, false_implies, iff_true] at holds ⊢
    split at holds <;> omega

end Shape

namespace Symbolic

variable {ρ : Valuation}

/-- Where two ways meet, the chosen value is wrapped to the shape of the choice. If both ways hold
the same expression there is no choice, but then its shape is that of the expression. -/
theorem eval_merged {cond yes no : Expr} {c v : Int} (value : cond.eval ρ = .ok c)
    (chosen : (if c = 0 then no else yes).eval ρ = .ok v)
    (wrapped : (if c = 0 then no else yes).shape.wrap v = v) :
    (if yes = no then yes else .select cond yes no).eval ρ =
      .ok ((Expr.select cond yes no).shape.wrap v) := by
  split
  next same =>
    subst same
    have shape : (Expr.select cond yes yes).shape = yes.shape := by
      change Shape.mk (Expr.select cond yes yes).shape.width
        (Expr.select cond yes yes).shape.signed = _
      rw [width_select, signed_select, Nat.max_self, Bool.or_self]
      rfl
    rw [ite_self] at chosen wrapped
    rw [chosen, shape, wrapped]
  next => exact eval_select value chosen

/-- The test for choice `i` succeeds if the selector counts to it, and fails if the selector is
negative. -/
theorem picks_count {q : Expr} {k : Int} {i last : Nat} (value : q.eval ρ = .ok k) (h : i ≤ last) :
    (picks q i last).eval ρ =
      .ok (decide (0 ≤ k ∧ i = choiceIndex k (last + 1))).toNat := by
  -- The last choice takes all that is beyond it, the others what is equal to them.
  have counted : (0 ≤ k ∧ i = choiceIndex k (last + 1)) ↔ if i = last then k ≥ i else k = i := by
    rw [choiceIndex, Nat.add_sub_cancel]
    split <;> split <;> omega
  rw [picks]
  by_cases final : i = last
  · rw [if_pos final] at counted ⊢
    refine Expr.eval_compare value (Expr.eval_int ρ i) rfl ?_
    change ((decide (k ≥ i)).toNat : Int) = _
    rw [decide_eq_decide.mpr counted]
  · rw [if_neg final] at counted ⊢
    refine Expr.eval_compare value (Expr.eval_int ρ i) rfl ?_
    change ((decide (k = i)).toNat : Int) = _
    rw [decide_eq_decide.mpr counted]

end Symbolic

namespace Stmt

/-- Folding gives the signal an expression that has the value `y`, once this is cut to the signal's
shape. -/
def FoldsTo (ss : List Stmt) (ρ : Valuation) (x : Signal) (y : Int) : Prop :=
  ∃ e v, (folded ss).get? x = some e ∧ e.eval ρ = .ok v ∧ x.shape.wrap v = y

theorem FoldsTo.unique {ss : List Stmt} {ρ : Valuation} {x : Signal} {y z : Int}
    (first : FoldsTo ss ρ x y) (second : FoldsTo ss ρ x z) : y = z := by
  obtain ⟨e, v, found, value, rfl⟩ := first
  obtain ⟨e', v', found', value', rfl⟩ := second
  cases found.symm.trans found'
  cases value.symm.trans value'
  rfl

/-- What reads none of the signals that are reset at the start has its value from outside. -/
theorem eval_fresh {e : Expr} {σ : SimState} {writes : OrdSet Signal}
    (unread : ∀ s ∈ e.mentions, s ∉ writes) :
    e.eval (Simulator.fresh σ writes).seen = e.eval σ.value := by
  rw [Frame.seen_blocking rfl]
  exact e.eval_congr fun s hs => Simulator.latest_fresh_of_not_mem (unread s hs)

/-! ### Both ways of a branch -/

/-- Assign `a` to a signal if any bit of `c` is set, else `b`. -/
def branching (x : Signal) (c a b : Expr) : List Stmt :=
  [.branch c [.assign (.signal x) a] [.assign (.signal x) b]]

theorem mem_assigned_branching (x : Signal) (c a b : Expr) (y : Signal) :
    y ∈ assigned (branching x c a b) ↔ y = x := by
  rw [← drivenBy_iff]
  simp [Frame.DrivenBy, branching, targetsOf, targets, Expr.drives]

theorem folded_branching (x : Signal) (c a b : Expr) :
    (folded (branching x c a b)).get? x = some (if a = b then a else .select c a b) := by
  have known : x ∈ (OrdMap.insert ∅ x a : Symbolic).keys ∪ (OrdMap.insert ∅ x b : Symbolic).keys :=
    OrdSet.mem_union.mpr (.inl (OrdMap.mem_keys_insert.mpr (.inl rfl)))
  simp only [folded, branching, foldAll, fold, Symbolic.store, Symbolic.merge, OrdMap.get?_ofKeys,
    if_pos known, Symbolic.held_insert, if_true]

variable {x : Signal} {c a b : Expr} {σ : SimState}

/-- A run stores the value of the way that is taken. -/
theorem run_branching {k v : Int} (unread : x ∉ c.mentions ++ (a.mentions ++ b.mentions))
    (cond : c.eval σ.value = .ok k) (chosen : (if k = 0 then b else a).eval σ.value = .ok v) :
    ∃ f, (Frame.execAll (branching x c a b)).run.run
        (Simulator.fresh σ (assigned (branching x c a b))) = (.ok (), f) ∧
      f.latest x = x.shape.wrap v := by
  have outside : ∀ e : Expr, x ∉ e.mentions →
      e.eval (Simulator.fresh σ (assigned (branching x c a b))).seen = e.eval σ.value := by
    intro e unread
    refine eval_fresh fun s hs driven => unread ?_
    rw [mem_assigned_branching] at driven
    exact driven ▸ hs
  simp only [List.mem_append, not_or] at unread
  generalize Simulator.fresh σ (assigned (branching x c a b)) = f at outside
  have way : (Frame.exec (.assign (.signal x) (if k = 0 then b else a))).run.run f =
      (.ok (), f.stored x v) := by
    rw [Frame.run_exec_assign, outside _ (by split <;> simp [unread]), chosen]
    exact Frame.run_write_signal ..
  have taken : (if k = 0 then [.assign (.signal x) b] else [.assign (.signal x) a] : List Stmt) =
      [.assign (.signal x) (if k = 0 then b else a)] := by split <;> rfl
  have branch : (Frame.exec (.branch c [.assign (.signal x) a] [.assign (.signal x) b])).run.run f =
      (.ok (), f.stored x v) := by
    rw [Frame.run_exec_branch, outside c unread.1, cond]
    dsimp only
    rw [taken]
    exact Frame.run_execAll_cons_ok.mpr ⟨_, way, Frame.run_execAll_nil _⟩
  refine ⟨f.stored x v, Frame.run_execAll_cons_ok.mpr ⟨_, branch, Frame.run_execAll_nil _⟩, ?_⟩
  rw [Frame.latest_stored, if_pos rfl]

namespace Mixed

def wide : Signal := ⟨⟨0⟩, "wide", .unsigned 8, 0, false⟩

def flag : Signal := ⟨⟨1⟩, "flag", .unsigned 1, 0, false⟩

def count : Signal := ⟨⟨2⟩, "count", .unsigned 4, 0, false⟩

def delta : Signal := ⟨⟨3⟩, "delta", .signedOf 4, 0, false⟩

/-- Eight bits take four unsigned or four signed ones. -/
def body : List Stmt := branching wide flag count delta

/-- The unsigned way is taken with `n`. -/
def counted (n : Int) : SimState := .ofList [(flag, 1), (count, n), (delta, -1)]

end Mixed

/-- Assign `r` to the signal that `q` selects. -/
def choosing (q : Expr) (xs : List Signal) (r : Expr) : List Stmt :=
  [.assign (.mux q (xs.map .signal)) r]

theorem drivesOf_signals (xs : List Signal) : Expr.drivesOf (xs.map .signal) = xs := by
  induction xs with
  | nil => rfl
  | cons x xs ih => rw [List.map_cons, Expr.drivesOf, ih, Expr.drives, List.singleton_append]

theorem mem_assigned_choosing (q : Expr) (xs : List Signal) (r : Expr) (y : Signal) :
    y ∈ assigned (choosing q xs r) ↔ y ∈ xs := by
  rw [← drivenBy_iff]
  simp [Frame.DrivenBy, choosing, targetsOf, targets, Expr.drives, drivesOf_signals]

/-- Each of the signals holds a choice between the new value and what it held before; no other
signal changes. -/
theorem held_storeChoices {q r : Expr} {xs : List Signal} (distinct : xs.Nodup) (env : Symbolic)
    (i last : Nat) :
    (∀ y, y ∉ xs → (env.storeChoices q (xs.map .signal) r i last).held y = env.held y) ∧
      ∀ j x, xs[j]? = some x → (env.storeChoices q (xs.map .signal) r i last).held x =
        if r = env.held x then r else .select (Symbolic.picks q (i + j) last) r (env.held x) := by
  induction xs generalizing env i with
  | nil => exact ⟨fun _ _ => rfl, fun j x hx => by simp at hx⟩
  | cons z xs ih =>
    obtain ⟨fresh, rest⟩ := List.nodup_cons.mp distinct
    have step (y : Signal) : (Symbolic.merge (Symbolic.picks q i last)
        (env.store (.signal z) r) env).held y =
          if y = z then
            if r = env.held z then r else .select (Symbolic.picks q i last) r (env.held z)
          else env.held y := by
      rw [Symbolic.held_merge, Symbolic.store, Symbolic.held_insert]
      by_cases same : y = z <;> simp [same]
    obtain ⟨others, chosen⟩ := ih rest (Symbolic.merge (Symbolic.picks q i last)
      (env.store (.signal z) r) env) (i + 1)
    rw [List.map_cons, Symbolic.storeChoices]
    refine ⟨fun y hy => ?_, fun j x hx => ?_⟩
    · obtain ⟨other, later⟩ := not_or.mp (mt List.mem_cons.mpr hy)
      rw [others y later, step, if_neg other]
    · cases j with
      | zero =>
        obtain rfl : z = x := by simpa using hx
        rw [others z fresh, step, if_pos rfl, Nat.add_zero]
      | succ j =>
        have later : xs[j]? = some x := by simpa using hx
        have other : x ≠ z := fun same => fresh (same ▸ List.mem_of_getElem? later)
        rw [chosen j x later, step, if_neg other, Nat.add_right_comm, Nat.add_assoc]

theorem folded_choosing {q r : Expr} {xs : List Signal} (several : 2 ≤ xs.length)
    (distinct : xs.Nodup) {i : Nat} {x : Signal} (hx : xs[i]? = some x) :
    (folded (choosing q xs r)).get? x =
      some (if r = Symbolic.initial x then r
        else .select (Symbolic.picks q i (xs.length - 1)) r (Symbolic.initial x)) := by
  have stored : folded (choosing q xs r) =
      Symbolic.storeChoices ∅ q (xs.map .signal) r 0 (xs.length - 1) := by
    rcases xs with _ | ⟨y, _ | ⟨z, xs⟩⟩
    · exact absurd several (by decide)
    · exact absurd several (by simp)
    · simp only [folded, choosing, foldAll, fold, List.map_cons, Symbolic.store, List.length_cons,
        List.length_map]
  have known : x ∈ (folded (choosing q xs r)).keys := by
    rw [stored, Symbolic.mem_keys_storeChoices, drivesOf_signals]
    exact .inr (List.mem_of_getElem? hx)
  obtain ⟨e, found⟩ := Option.isSome_iff_exists.mp (OrdMap.mem_keys.mp known)
  have held := (held_storeChoices (q := q) (r := r) distinct ∅ 0 (xs.length - 1)).2 i x hx
  rw [← stored, Symbolic.held, OrdMap.getD, found, Option.getD_some, Nat.zero_add] at held
  rw [found, held]
  rfl

variable {q r : Expr} {xs : List Signal}

/-- A run stores into the signal that the selector counts to, the last one if it is out of range;
all others keep their reset values. -/
theorem run_choosing {k v : Int} (some : 0 < xs.length) (distinct : xs.Nodup)
    (unread : ∀ x ∈ xs, x ∉ q.mentions ++ r.mentions) (selector : q.eval σ.value = .ok k)
    (value : r.eval σ.value = .ok v) :
    ∃ f, (Frame.execAll (choosing q xs r)).run.run
        (Simulator.fresh σ (assigned (choosing q xs r))) = (.ok (), f) ∧
      ∀ i x, xs[i]? = .some x →
        f.latest x = if i = choiceIndex k xs.length then x.shape.wrap v else x.resetValue := by
  have outside : ∀ e : Expr, (∀ x ∈ xs, x ∉ e.mentions) →
      e.eval (Simulator.fresh σ (assigned (choosing q xs r))).seen = e.eval σ.value := by
    intro e unread
    refine eval_fresh fun s hs driven => unread s ?_ hs
    rwa [mem_assigned_choosing] at driven
  have start : ∀ x ∈ xs,
      (Simulator.fresh σ (assigned (choosing q xs r))).latest x = x.resetValue := fun x hx =>
    Simulator.latest_fresh_of_mem ((mem_assigned_choosing q xs r x).mpr hx)
  simp only [List.mem_append, not_or] at unread
  generalize Simulator.fresh σ (assigned (choosing q xs r)) = f at outside start
  obtain ⟨y, counted⟩ : ∃ y, xs[choiceIndex k xs.length]? = Option.some y :=
    ⟨_, List.getElem?_eq_getElem (Expr.choiceIndex_lt k some)⟩
  have assigned : (Frame.exec (.assign (.mux q (xs.map .signal)) r)).run.run f =
      (.ok (), f.stored y v) := by
    rw [Frame.run_exec_assign, outside r fun x hx => (unread x hx).2, value]
    dsimp only
    rw [Frame.run_write_mux, outside q fun x hx => (unread x hx).1, selector]
    dsimp only
    have target : (xs.map Expr.signal)[choiceIndex k xs.length]? = Option.some (.signal y) := by
      rw [List.getElem?_map, counted]
      rfl
    rw [List.length_map, Frame.writeChoice_eq target]
    exact Frame.run_write_signal ..
  refine ⟨_, Frame.run_execAll_cons_ok.mpr ⟨_, assigned, Frame.run_execAll_nil _⟩, ?_⟩
  intro i x hx
  rw [Frame.latest_stored, start x (List.mem_of_getElem? hx)]
  -- The signals are distinct, so each one stands at one place only.
  by_cases here : i = choiceIndex k xs.length
  · subst here
    obtain rfl : y = x := Option.some.inj (counted.symm.trans hx)
    rw [if_pos rfl, if_pos rfl]
  · have other : x ≠ y := by
      rintro rfl
      obtain ⟨bound, -⟩ := List.getElem?_eq_some_iff.mp hx
      exact here ((List.getElem?_inj bound distinct).mp (hx.trans counted.symm))
    rw [if_neg other, if_neg here]

/-- A negative selector passes no test, so that no signal changes. -/
theorem folds_choosing {k v : Int} {w : Nat} (several : 2 ≤ xs.length) (distinct : xs.Nodup)
    (even : ∀ x ∈ xs, x.width = w) (fits : r.width = w)
    (inRange : ∀ s ∈ r.mentions, s.shape.Holds (σ.value s)) (selector : q.eval σ.value = .ok k)
    (value : r.eval σ.value = .ok v) {i : Nat} {x : Signal} (hx : xs[i]? = some x) :
    FoldsTo (choosing q xs r) σ.value x
      (if 0 ≤ k ∧ i = choiceIndex k xs.length then x.shape.wrap v else x.resetValue) := by
  obtain ⟨bound, -⟩ := List.getElem?_eq_some_iff.mp hx
  have length : xs.length - 1 + 1 = xs.length := by omega
  have test : (Symbolic.picks q i (xs.length - 1)).eval σ.value =
      .ok (decide (0 ≤ k ∧ i = choiceIndex k (xs.length - 1 + 1))).toNat :=
    Symbolic.picks_count selector (by omega)
  rw [length] at test
  have reset : (Symbolic.initial x).eval σ.value = .ok x.resetValue :=
    congrArg Except.ok (x.shape.wrap_wrap x.reset)
  have width :
      (Expr.select (Symbolic.picks q i (xs.length - 1)) r (Symbolic.initial x)).shape.width =
        x.shape.width := by
    have own : x.width = w := even x (List.mem_of_getElem? hx)
    rw [Symbolic.width_select, fits]
    change max x.width w = x.width
    rw [own, Nat.max_self]
  have kept (n : Int) : x.shape.wrap
      ((Expr.select (Symbolic.picks q i (xs.length - 1)) r (Symbolic.initial x)).shape.wrap n) =
        x.shape.wrap n :=
    Shape.wrap_wrap_of_le width.ge n
  refine ⟨_, (Expr.select (Symbolic.picks q i (xs.length - 1)) r (Symbolic.initial x)).shape.wrap
    (if 0 ≤ k ∧ i = choiceIndex k xs.length then v else x.resetValue),
    folded_choosing several distinct hx, ?_, ?_⟩
  · refine Symbolic.eval_merged test ?_ ?_
    · by_cases picked : 0 ≤ k ∧ i = choiceIndex k xs.length
      · simpa [picked] using value
      · simpa [picked] using reset
    · by_cases picked : 0 ≤ k ∧ i = choiceIndex k xs.length
      · simpa [picked] using Expr.eval_wrapped inRange value
      · have own : (Symbolic.initial x).shape.wrap x.resetValue = x.resetValue := x.wrap_resetValue
        simpa [picked] using own
  · rw [kept]
    split
    · rfl
    · exact x.wrap_resetValue

/-- A value is assigned to one of several signals of its width, which neither the value nor the
selector reads. A run stores into the signal that the selector counts to, or into the last one if it
is out of range; all others keep their reset values. Folding does the same for a selector that is
not negative and changes nothing for one that is, so the two differ exactly if the last signal is to
change then. -/
theorem folded_choice_iff {w : Nat} (several : 2 ≤ xs.length) (distinct : xs.Nodup)
    (even : ∀ x ∈ xs, x.width = w) (fits : r.width = w) (resolved : q.refs = [] ∧ r.refs = [])
    (unread : ∀ x ∈ xs, x ∉ q.mentions ++ r.mentions)
    (inRange : ∀ s ∈ r.mentions, s.shape.Holds (σ.value s)) :
    ∃ k v f, q.eval σ.value = .ok k ∧ r.eval σ.value = .ok v ∧
      (Frame.execAll (choosing q xs r)).run.run
        (Simulator.fresh σ (assigned (choosing q xs r))) = (.ok (), f) ∧
      (∀ i x, xs[i]? = some x →
        f.latest x = (if i = choiceIndex k xs.length then x.shape.wrap v else x.resetValue) ∧
        FoldsTo (choosing q xs r) σ.value x
          (if 0 ≤ k ∧ i = choiceIndex k xs.length then x.shape.wrap v else x.resetValue)) ∧
      ((∀ x ∈ xs, FoldsTo (choosing q xs r) σ.value x (f.latest x)) ↔
        0 ≤ k ∨ ∀ x ∈ xs.getLast?, x.shape.wrap v = x.resetValue) := by
  obtain ⟨k, selector⟩ := Expr.eval_ok σ.value q resolved.1
  obtain ⟨v, value⟩ := Expr.eval_ok σ.value r resolved.2
  obtain ⟨f, ran, left⟩ := run_choosing (by omega) distinct unread selector value
  have folds (i : Nat) (x : Signal) (hx : xs[i]? = some x) :=
    folds_choosing several distinct even fits inRange selector value hx
  refine ⟨k, v, f, selector, value, ran, fun i x hx => ⟨left i x hx, folds i x hx⟩, ?_⟩
  by_cases natural : 0 ≤ k
  · refine iff_of_true (fun x hx => ?_) (.inl natural)
    obtain ⟨i, hi⟩ := List.getElem?_of_mem hx
    have same := folds i x hi
    simp only [natural, true_and] at same
    rwa [left i x hi]
  -- A run stores into the last signal, and folding into none.
  have last : choiceIndex k xs.length = xs.length - 1 := by rw [choiceIndex, if_neg natural]
  simp only [natural, false_and, if_false, last] at left folds
  rw [or_iff_right natural, List.getLast?_eq_getElem?]
  constructor
  · intro same x hx
    have final := left _ x hx
    rw [if_pos rfl] at final
    rw [← final]
    exact (same x (List.mem_of_getElem? hx)).unique (folds _ x hx)
  · intro unchanged x hx
    obtain ⟨i, hi⟩ := List.getElem?_of_mem hx
    have same := folds i x hi
    rw [left i x hi]
    split
    next final => rwa [unchanged x (final ▸ hi)]
    next => exact same

namespace Steered

def pick : Signal := ⟨⟨0⟩, "pick", .signedOf 3, 0, false⟩

def low : Signal := ⟨⟨1⟩, "low", .unsigned 2, 3, false⟩

def middle : Signal := ⟨⟨2⟩, "middle", .signedOf 2, 0, false⟩

def high : Signal := ⟨⟨3⟩, "high", .unsigned 2, 0, false⟩

/-- One of three signals takes two bits, by a signed selector. -/
def body : List Stmt := choosing pick [low, middle, high] (.sized 2 (.unsigned 2))

def state (n : Int) : SimState := .ofList [(pick, n)]

end Steered

open Steered in
/-- Past the end of the signals the last one is taken on both sides. -/
theorem far_choice_kept :
    ∃ f, (Frame.execAll body).run.run
        (Simulator.fresh (state 3) (assigned body)) = (.ok (), f) ∧
      f.latest high = 2 ∧ f.latest low = 3 ∧
      ∀ x ∈ [low, middle, high], FoldsTo body (state 3).value x (f.latest x) := by
  obtain ⟨k, v, f, selector, value, ran, left, right⟩ :=
    folded_choice_iff (q := pick) (r := .sized 2 (.unsigned 2)) (w := 2) (σ := state 3)
      (show 2 ≤ [low, middle, high].length by decide) (by decide) (by decide) (by decide)
      (by decide) (by decide) (by decide)
  obtain rfl : k = 3 := Except.ok.inj (selector.symm.trans (by decide +kernel))
  obtain rfl : v = 2 := Except.ok.inj (value.symm.trans (by decide +kernel))
  exact ⟨f, ran, (left 2 high rfl).1, (left 0 low rfl).1, right.mpr (.inl (by decide))⟩

open Steered in
/-- For a negative selector a run stores into the last signal, which folding leaves at its reset
value. -/
theorem negative_choice_lost :
    pick.shape.Holds (-1) ∧
    ∃ f e, (Frame.execAll body).run.run
        (Simulator.fresh (state (-1)) (assigned body)) = (.ok (), f) ∧
      f.latest high = 2 ∧ (folded body).get? high = some e ∧
      e.eval (state (-1)).value = .ok 0 ∧ high.shape.wrap 0 = high.resetValue :=
  ⟨by decide, _, _, rfl, by decide +kernel, rfl, by decide +kernel, by decide +kernel⟩

end Stmt

end Gateware
