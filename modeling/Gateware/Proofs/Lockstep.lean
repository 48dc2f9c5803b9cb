import Mathlib.Logic.Basic

/-!
# Runs in lockstep

Two steps on states of their own go in lockstep if they start from related states, give results that
correspond, and end in related states. What is put together from such steps goes in lockstep, so two
long runs are compared by comparing their steps.

## Main results

* `Lockstep.bind`, `Lockstep.mapM`: steps one after the other.
* `Lockstep.OrFail.bind`, `Lockstep.OrFail.mapM`: the same for steps that may fail, and then fail
  alike.
-/
namespace Gateware

variable {σ τ ε α β γ δ : Type} {I : σ → τ → Prop}

/-- From related states the steps give results that correspond by `g`, and end in related states. -/
def Lockstep (I : σ → τ → Prop) (g : α → β) (x : StateM σ α) (y : StateM τ β) : Prop :=
  ∀ s t, I s t → (y.run t).1 = g (x.run s).1 ∧ I (x.run s).2 (y.run t).2

/-- A relation between steps that sequencing keeps is kept by going through a list. -/
theorem mapM_related {m n : Type → Type} [Monad m] [LawfulMonad m] [Monad n] [LawfulMonad n]
    (R : ∀ {α β : Type}, (α → β) → m α → n β → Prop)
    (pure : ∀ {α β : Type} {g : α → β} (a : α), R g (pure a) (pure (g a)))
    (bind : ∀ {α β γ δ : Type} {g : α → β} {h : γ → δ} {x : m α} {y : n β} {k : α → m γ}
      {l : β → n δ}, R g x y → (∀ a, R h (k a) (l (g a))) → R h (x >>= k) (y >>= l))
    {g : α → β} {h : γ → δ} {f : γ → m α} {j : δ → n β} {xs : List γ} {ys : List δ}
    (same : ys = xs.map h) (each : ∀ x ∈ xs, R g (f x) (j (h x))) :
    R (List.map g) (xs.mapM f) (ys.mapM j) := by
  subst same
  induction xs with
  | nil => exact pure []
  | cons x xs ih =>
    rw [List.map_cons, List.mapM_cons, List.mapM_cons]
    refine bind (each x List.mem_cons_self) fun a => ?_
    exact bind (ih fun y hy => each y (List.mem_cons_of_mem _ hy)) fun as => pure (a :: as)

namespace Lockstep

theorem pure {g : α → β} (a : α) : Lockstep I g (pure a) (pure (g a)) :=
  fun _ _ related => ⟨rfl, related⟩

theorem bind {g : α → β} {h : γ → δ} {x : StateM σ α} {y : StateM τ β} {k : α → StateM σ γ}
    {l : β → StateM τ δ} (first : Lockstep I g x y) (rest : ∀ a, Lockstep I h (k a) (l (g a))) :
    Lockstep I h (x >>= k) (y >>= l) := by
  intro s t related
  obtain ⟨same, related⟩ := first s t related
  rw [StateT.run_bind, StateT.run_bind]
  change ((l (y.run t).1).run (y.run t).2).1 = h ((k (x.run s).1).run (x.run s).2).1 ∧
    I ((k (x.run s).1).run (x.run s).2).2 ((l (y.run t).1).run (y.run t).2).2
  rw [same]
  exact rest _ _ _ related

theorem map {g : α → β} {h : γ → δ} {x : StateM σ α} {y : StateM τ β} {f : α → γ} {f' : β → δ}
    (first : Lockstep I g x y) (along : ∀ a, f' (g a) = h (f a)) :
    Lockstep I h (f <$> x) (f' <$> y) := by
  rw [map_eq_pure_bind, map_eq_pure_bind]
  refine first.bind fun a => ?_
  rw [along]
  exact .pure _

theorem mapM {g : α → β} {h : γ → δ} {f : γ → StateM σ α} {f' : δ → StateM τ β} {xs : List γ}
    {ys : List δ} (same : ys = xs.map h) (each : ∀ x ∈ xs, Lockstep I g (f x) (f' (h x))) :
    Lockstep I (List.map g) (xs.mapM f) (ys.mapM f') :=
  mapM_related (Lockstep I) pure bind same each

/-! ### Steps that may fail -/

/-- The steps fail alike, or go in lockstep. -/
def OrFail (I : σ → τ → Prop) (g : α → β) (x : ExceptT ε (StateM σ) α)
    (y : ExceptT ε (StateM τ) β) : Prop :=
  Lockstep I (Except.map g) x.run y.run

namespace OrFail

theorem pure {g : α → β} (a : α) :
    OrFail (ε := ε) I g (Pure.pure a) (Pure.pure (g a)) := Lockstep.pure (Except.ok a)

theorem throw {g : α → β} (f : ε) : OrFail (ε := ε) I g (throw f) (throw f) :=
  Lockstep.pure (Except.error f)

theorem bind {g : α → β} {h : γ → δ} {x : ExceptT ε (StateM σ) α} {y : ExceptT ε (StateM τ) β}
    {k : α → ExceptT ε (StateM σ) γ} {l : β → ExceptT ε (StateM τ) δ} (first : OrFail I g x y)
    (rest : ∀ a, OrFail I h (k a) (l (g a))) : OrFail I h (x >>= k) (y >>= l) := by
  rw [OrFail, ExceptT.run_bind, ExceptT.run_bind]
  refine Lockstep.bind first fun result => ?_
  cases result with
  | error f => exact Lockstep.pure (Except.error f)
  | ok a => exact rest a

theorem map {g : α → β} {h : γ → δ} {x : ExceptT ε (StateM σ) α} {y : ExceptT ε (StateM τ) β}
    {f : α → γ} {f' : β → δ} (first : OrFail I g x y) (along : ∀ a, f' (g a) = h (f a)) :
    OrFail I h (f <$> x) (f' <$> y) := by
  rw [map_eq_pure_bind, map_eq_pure_bind]
  refine first.bind fun a => ?_
  rw [along]
  exact .pure _

theorem mapM {g : α → β} {h : γ → δ} {f : γ → ExceptT ε (StateM σ) α}
    {f' : δ → ExceptT ε (StateM τ) β} {xs : List γ} {ys : List δ} (same : ys = xs.map h)
    (each : ∀ x ∈ xs, OrFail I g (f x) (f' (h x))) :
    OrFail I (List.map g) (xs.mapM f) (ys.mapM f') :=
  mapM_related (OrFail I) pure bind same each

theorem ite {c : Prop} [Decidable c] {g : α → β} {x x' : ExceptT ε (StateM σ) α}
    {y y' : ExceptT ε (StateM τ) β} (yes : OrFail I g x y) (no : OrFail I g x' y') :
    OrFail I g (if c then x else x') (if c then y else y') := by
  split
  · exact yes
  · exact no

/-- A step that cannot fail. -/
theorem lift {g : α → β} {x : StateM σ α} {y : StateM τ β} (same : Lockstep I g x y) :
    OrFail (ε := ε) I g (liftM x) (liftM y) :=
  same.map fun _ => rfl

/-- A step that has no state. -/
theorem except {g : α → β} {x : Except ε α} {y : Except ε β} (same : y = x.map g) :
    OrFail (ε := ε) I g (liftM x) (liftM y) :=
  fun _ _ related => ⟨same, related⟩

/-- A step that has no state and comes out the same. -/
theorem check {x y : Except ε α} (same : y = x) : OrFail (ε := ε) I id (liftM x) (liftM y) := by
  apply except
  rw [same]
  cases x <;> rfl

/-- Reasons for failing under other names. -/
theorem adapt {ε' : Type} (f : ε → ε') {g : α → β} {x : ExceptT ε (StateM σ) α}
    {y : ExceptT ε (StateM τ) β} (same : OrFail I g x y) : OrFail I g (x.adapt f) (y.adapt f) :=
  Lockstep.map same fun result => by cases result <;> rfl

end OrFail

end Lockstep

end Gateware
