import Mathlib.Data.List.Forall2

/-!
# Computations that may fail

One equation for each way a computation goes on, so that proofs about runs never open the monad:
first for plain results, then for steps on a state that stays what it is when a step fails.
-/
namespace Gateware

/-! ### Results -/

section Results

variable {ε α β γ δ : Type}

theorem bind_eq_ok {x : Except ε α} {f : α → Except ε β} {b : β} :
    (x >>= f) = .ok b ↔ ∃ a, x = .ok a ∧ f a = .ok b := by
  cases x with
  | error e => exact ⟨fun h => (nomatch h), fun ⟨_, h, _⟩ => (nomatch h)⟩
  | ok a => exact ⟨fun h => ⟨a, rfl, h⟩, fun ⟨_, same, h⟩ => by cases same; exact h⟩

theorem bind_eq_error {x : Except ε α} {f : α → Except ε β} {e : ε} :
    (x >>= f) = .error e ↔ x = .error e ∨ ∃ a, x = .ok a ∧ f a = .error e := by
  cases x <;> simp [Bind.bind, Except.bind]

theorem pure_eq_ok {a b : α} : (pure a : Except ε α) = .ok b ↔ b = a := by
  simp only [pure, Except.pure, Except.ok.injEq, eq_comm]

theorem mapM_ok_iff {f : α → Except ε β} {xs : List α} {ys : List β} :
    xs.mapM f = .ok ys ↔ List.Forall₂ (fun x y => f x = .ok y) xs ys := by
  induction xs generalizing ys with
  | nil => cases ys <;> simp [pure, Except.pure]
  | cons x xs ih =>
    rw [List.mapM_cons, List.forall₂_cons_left_iff]
    simp only [bind_eq_ok]
    constructor
    · rintro ⟨y, hy, zs, hzs, same⟩
      cases same
      exact ⟨y, zs, hy, ih.mp hzs, rfl⟩
    · rintro ⟨y, zs, hy, hzs, rfl⟩
      exact ⟨y, hy, zs, ih.mpr hzs, rfl⟩

theorem exists_ok {x : Except ε α} (h : x.isOk = true) : ∃ a, x = .ok a := by
  cases x with
  | error e => cases h
  | ok a => exact ⟨a, rfl⟩

/-- What can be decided of a result holds of it. -/
theorem forall_ok {x : Except ε α} {p : α → Prop} [DecidablePred p]
    (h : x.toOption.all (fun a => decide (p a)) = true) : ∀ a, x = .ok a → p a := by
  rintro a rfl
  exact of_decide_eq_true h

/-- A step over renamed inputs, and the next one over what it gives. -/
theorem bind_map_comm {g : α → β} {h : γ → δ} {x : Except ε α} {x' : Except ε β}
    {k : α → Except ε γ} {k' : β → Except ε δ} (same : x' = x.map g)
    (along : ∀ a, k' (g a) = (k a).map h) : (x' >>= k') = (x >>= k).map h := by
  rw [same]
  cases x with
  | error e => rfl
  | ok a => exact along a

/-- A fold over renamed elements from a renamed start. -/
theorem foldlM_map_comm {g : α → β} {f : α → γ → Except ε α} {f' : β → δ → Except ε β} {k : γ → δ}
    (along : ∀ a x, f' (g a) (k x) = (f a x).map g) (xs : List γ) (a : α) :
    (xs.map k).foldlM f' (g a) = (xs.foldlM f a).map g := by
  induction xs generalizing a with
  | nil => rfl
  | cons x xs ih =>
    rw [List.map_cons, List.foldlM_cons, List.foldlM_cons]
    exact bind_map_comm (along a x) ih

end Results

/-! ### Steps -/

section Steps

variable {ε σ α β : Type}

theorem run_bind (x : ExceptT ε (StateM σ) α) (k : α → ExceptT ε (StateM σ) β) (s : σ) :
    (x >>= k).run.run s = match x.run.run s with
      | (.ok a, t) => (k a).run.run t
      | (.error e, t) => (.error e, t) := by
  simp only [ExceptT.run_bind, StateT.run_bind]
  rcases x.run.run s with ⟨a | a, t⟩ <;> rfl

/-- A sequence that ends well ends both steps well. -/
theorem run_bind_eq_ok {x : ExceptT ε (StateM σ) α} {k : α → ExceptT ε (StateM σ) β} {b : β}
    {s s' : σ} (h : (x >>= k).run.run s = (.ok b, s')) :
    ∃ a t, x.run.run s = (.ok a, t) ∧ (k a).run.run t = (.ok b, s') := by
  rw [run_bind] at h
  rcases ended : x.run.run s with ⟨fault | a, t⟩
  · rw [ended] at h
    cases h
  · rw [ended] at h
    exact ⟨a, t, rfl, h⟩

@[simp] theorem run_pure (a : α) (s : σ) :
    (pure a : ExceptT ε (StateM σ) α).run.run s = (.ok a, s) := rfl

@[simp] theorem run_get (s : σ) : (get : ExceptT ε (StateM σ) σ).run.run s = (.ok s, s) := rfl

@[simp] theorem run_set (s t : σ) :
    (set t : ExceptT ε (StateM σ) PUnit).run.run s = (.ok (), t) := rfl

@[simp] theorem run_throw (e : ε) (s : σ) :
    (throw e : ExceptT ε (StateM σ) α).run.run s = (.error e, s) := rfl

@[simp] theorem run_lift (x : Except ε α) (s : σ) :
    (liftM x : ExceptT ε (StateM σ) α).run.run s = (x, s) := rfl

theorem run_liftState (x : StateM σ α) (s : σ) :
    (liftM x : ExceptT ε (StateM σ) α).run.run s = (.ok (x.run s).1, (x.run s).2) := rfl

theorem run_map (g : α → β) (x : ExceptT ε (StateM σ) α) (s : σ) :
    (g <$> x).run.run s = ((x.run.run s).1.map g, (x.run.run s).2) := by
  change (x.run >>= ExceptT.bindCont fun a => pure (g a)).run s = _
  rcases h : x.run.run s with ⟨e | a, t⟩
  all_goals
    simp only [StateT.run_bind, h]
    rfl

/-- A run that ends well, with what it leaves. -/
theorem eq_ok_of_fst {ended : Except ε Unit × σ} (done : ended.1 = .ok ()) :
    ended = (.ok (), ended.2) := Prod.ext done rfl

end Steps

end Gateware
