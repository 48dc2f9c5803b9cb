import Gateware.Proofs.Machine.Plain

/-!
# What a state's statements leave behind

The last move decides what the next state is, and the last load for a register decides whether it
loads and what. All else that a state does stays away from the new signals.
-/
namespace Gateware.Machine

open Gateware.Stmt Gateware.Frame

/-- The state that a statement moves to. -/
def moveOf : Stmt → Option String
  | .nextState s => some s
  | _ => none

/-- The last move among statements. -/
def lastMove (done : List Stmt) : Option String := (done.filterMap moveOf).getLast?

/-- The value that a statement loads into a register. -/
def loadOf (target : Expr) : Stmt → Option Expr
  | .nextValue t v => if t = target then some v else none
  | _ => none

/-- The value of the last load for a register among statements. -/
def lastLoad (target : Expr) (done : List Stmt) : Option Expr :=
  (done.filterMap (loadOf target)).getLast?

theorem getLast?_filterMap_cons {α β : Type} (f : α → Option β) (a : α) (l : List α) :
    ((a :: l).filterMap f).getLast? = (l.filterMap f).getLast?.or (f a) := by
  cases h : f a with
  | none => rw [List.filterMap_cons_none h, Option.or_none]
  | some b => rw [List.filterMap_cons_some h, List.getLast?_cons, Option.or_some]

theorem lastMove_cons (s : Stmt) (ss : List Stmt) :
    lastMove (s :: ss) = (lastMove ss).or (moveOf s) :=
  getLast?_filterMap_cons moveOf s ss

theorem lastLoad_cons (target : Expr) (s : Stmt) (ss : List Stmt) :
    lastLoad target (s :: ss) = (lastLoad target ss).or (loadOf target s) :=
  getLast?_filterMap_cons (loadOf target) s ss

/-- Frames before and after statements with this last move and these last loads, whose values are
those in a fixed state. -/
structure Effect (m : Machine) (p : Parts) (ρ : Valuation) (move : Option String)
    (load : Expr → Option Expr) (f g : Frame) : Prop where
  stay : move = none → g.latest p.nextState = f.latest p.nextState
  moves : ∀ t, move = some t →
    ∃ code, m.code? (m.resolve t) = some code ∧ g.latest p.nextState = m.shape.wrap code
  hold : ∀ l ∈ p.loads, load l.target = none →
    g.latest l.enable = f.latest l.enable ∧ g.latest l.next = f.latest l.next
  loads : ∀ l ∈ p.loads, ∀ v, load l.target = some v →
    g.latest l.enable = 1 ∧ ∃ x, v.eval ρ = .ok x ∧ g.latest l.next = l.next.shape.wrap x

namespace Effect

variable {m : Machine} {p : Parts} {ρ : Valuation} {move move' : Option String}
  {load load' : Expr → Option Expr} {f g h : Frame}

theorem refl : Effect m p ρ none (fun _ => none) f f :=
  ⟨fun _ => rfl, nofun, fun _ _ _ => ⟨rfl, rfl⟩, fun _ _ _ => nofun⟩

/-- Later moves and loads win over earlier ones. -/
theorem trans (first : Effect m p ρ move load f g) (second : Effect m p ρ move' load' g h) :
    Effect m p ρ (move'.or move) (fun t => (load' t).or (load t)) f h where
  stay none := by
    obtain ⟨late, early⟩ := Option.or_eq_none_iff.mp none
    exact (second.stay late).trans (first.stay early)
  moves t some := by
    rcases Option.or_eq_some_iff.mp some with late | ⟨late, early⟩
    · exact second.moves t late
    · obtain ⟨code, known, value⟩ := first.moves t early
      exact ⟨code, known, (second.stay late).trans value⟩
  hold l hl none := by
    obtain ⟨late, early⟩ := Option.or_eq_none_iff.mp none
    obtain ⟨enable, next⟩ := first.hold l hl early
    obtain ⟨enable', next'⟩ := second.hold l hl late
    exact ⟨enable'.trans enable, next'.trans next⟩
  loads l hl v some := by
    rcases Option.or_eq_some_iff.mp some with late | ⟨late, early⟩
    · exact second.loads l hl v late
    · obtain ⟨enable, x, value, next⟩ := first.loads l hl v early
      obtain ⟨enable', next'⟩ := second.hold l hl late
      exact ⟨enable'.trans enable, x, value, next'.trans next⟩

/-- Writes elsewhere do not matter. -/
theorem of_stores {D : Signal → Prop} (run : Stores D f g) (elsewhere : ∀ s ∈ p.signals, ¬ D s) :
    Effect m p ρ none (fun _ => none) f g where
  stay _ := run.latest_eq (elsewhere _ (.tail _ (.head _)))
  moves _ := nofun
  hold _ hl _ :=
    ⟨run.latest_eq (elsewhere _ (Parts.mem_signals_of_load hl).1),
      run.latest_eq (elsewhere _ (Parts.mem_signals_of_load hl).2)⟩
  loads _ _ _ := nofun

end Effect

variable {m : Machine} {supply : Supply} {p : Parts} {ρ : Valuation}

theorem effect_move (built : p.Built m supply) {t : String} {us : List Stmt}
    (plain : m.plain p.nextState p.loads (.nextState t) = .ok us) {f g : Frame}
    (run : (execAll us).run.run f = (.ok (), g)) :
    Effect m p ρ (some t) (fun _ => none) f g := by
  rw [Machine.plain] at plain
  split at plain
  next code known =>
    cases plain
    rw [run_execAll_singleton] at run
    obtain ⟨v, value, rfl⟩ := run_assign_signal_ok.mp run
    have coded : v = m.shape.wrap (m.shape.wrap code) := (Except.ok.inj value).symm
    have other : ∀ l ∈ p.loads, ∀ s ∈ l.signals, s ≠ p.nextState := by
      rintro l hl s hs rfl
      exact built.nextState_ne l hl hs
    refine ⟨fun none => ?_, fun t' same => ⟨code, Option.some.inj same ▸ known, ?_⟩,
      fun l hl _ => ?_, fun _ _ _ none => ?_⟩
    · cases none
    · rw [latest_stored, if_pos rfl, coded, built.nextShape, Shape.wrap_wrap, Shape.wrap_wrap]
    · rw [latest_stored, latest_stored, if_neg (other l hl _ l.enable_mem),
        if_neg (other l hl _ l.next_mem)]
      exact ⟨rfl, rfl⟩
    · cases none
  · cases plain

theorem effect_load (built : p.Built m supply) {target value : Expr} {us : List Stmt}
    (plain : m.plain p.nextState p.loads (.nextValue target value) = .ok us) {f g : Frame}
    (agree : ∀ x ∈ value.mentions, f.seen x = ρ x) (run : (execAll us).run.run f = (.ok (), g)) :
    Effect m p ρ none (fun t => if target = t then some value else none) f g := by
  rw [Machine.plain] at plain
  split at plain
  next k found =>
    cases plain
    obtain ⟨f₁, first, second⟩ := run_execAll_cons_ok.mp run
    rw [run_execAll_singleton] at second
    obtain ⟨x, evaluated, rfl⟩ := run_assign_signal_ok.mp first
    obtain ⟨one, set, rfl⟩ := run_assign_signal_ok.mp second
    rw [value.eval_congr agree] at evaluated
    have hk : k ∈ p.loads := List.mem_of_find?_eq_some found
    have own : k.target = target := by simpa using List.find?_some found
    obtain ⟨differ, apart⟩ := built.loads_apart
    have unit : k.enable.shape.wrap one = 1 := by
      rw [(built.enables k hk).1, ← Except.ok.inj set]
      rfl
    -- A register other than the one that is loaded has other signals.
    have other : ∀ l ∈ p.loads, target ≠ l.target → ∀ s ∈ l.signals, s ∉ k.signals :=
      fun l hl ne => apart l hl k hk fun same => ne (same ▸ own.symm)
    have outside : ∀ s, s ∉ k.signals →
        ((f.stored k.next x).stored k.enable one).latest s = f.latest s := by
      intro s hs
      simp only [Load.signals, List.mem_cons, List.not_mem_nil, or_false, not_or] at hs
      rw [latest_stored, if_neg hs.1, latest_stored, if_neg hs.2]
    refine ⟨fun _ => outside _ (built.nextState_ne k hk), fun _ moved => ?_, fun l hl none => ?_,
      fun l hl v some => ?_⟩
    · cases moved
    · have away := other l hl fun same => by simp [same] at none
      exact ⟨outside _ (away _ l.enable_mem), outside _ (away _ l.next_mem)⟩
    · have same : target = l.target := by
        by_contra ne
        simp [ne] at some
      rw [if_pos same] at some
      cases some
      obtain rfl := built.load_eq hk hl (own.trans same)
      refine ⟨?_, x, evaluated, ?_⟩
      · rw [latest_stored, if_pos rfl, unit]
      · rw [latest_stored, if_neg (differ k hk).symm, latest_stored, if_pos rfl]
  next missing =>
    cases plain
    cases run
    refine ⟨fun _ => rfl, fun _ moved => ?_, fun _ _ _ => ⟨rfl, rfl⟩, fun l hl v some => ?_⟩
    · cases moved
    have same : target = l.target := by
      by_contra ne
      simp [ne] at some
    rw [same, built.find?_target hl] at missing
    cases missing

/-- What the assignments for a leaf do. -/
theorem effect_leaf (built : p.Built m supply) {s : Stmt} (leaf : s.isLeaf = true) {us : List Stmt}
    (plain : m.plain p.nextState p.loads s = .ok us)
    (elsewhere : ∀ x ∈ p.signals, ¬ DrivenBy s.targets x) {f g : Frame}
    (agree : ∀ x ∈ s.sources, f.seen x = ρ x) (run : (execAll us).run.run f = (.ok (), g)) :
    Effect m p ρ (moveOf s) (fun t => loadOf t s) f g := by
  cases s with
  | assign lhs rhs =>
    cases plain
    have stores := execAll_stores [.assign lhs rhs] f
    rw [run] at stores
    exact .of_stores stores elsewhere
  | branch => cases leaf
  | select => cases leaf
  | nextState t => exact effect_move built plain run
  | nextValue target value =>
    exact effect_load built plain (fun x hx => agree x (List.mem_append_right _ hx)) run

/-- What the assignments for leaves do, one after the other. -/
theorem effect_leaves (built : p.Built m supply) {D : Signal → Prop} {done us : List Stmt}
    (plain : replaceOf (m.plain p.nextState p.loads) done = .ok us)
    (leaves : ∀ s ∈ done, s.isLeaf = true)
    (elsewhere : ∀ s ∈ done, ∀ x ∈ p.signals, ¬ DrivenBy s.targets x)
    (unread : ∀ s ∈ done, ∀ x ∈ s.sources, ¬ D x) (drives : ∀ x, DrivenBy (targetsOf us) x → D x)
    {f g : Frame} (agree : ∀ x, ¬ D x → f.seen x = ρ x)
    (run : (execAll us).run.run f = (.ok (), g)) :
    Effect m p ρ (lastMove done) (fun t => lastLoad t done) f g := by
  induction done generalizing f us with
  | nil =>
    cases plain
    cases run
    exact .refl
  | cons s done ih =>
    obtain ⟨first, rest, hs, hrest, rfl⟩ := replaceOf_cons.mp plain
    obtain ⟨f', run₁, run₂⟩ := run_execAll_append_ok.mp run
    rw [targetsOf_eq, List.flatMap_append, ← targetsOf_eq, ← targetsOf_eq] at drives
    rw [replace_leaf (leaves s (.head _))] at hs
    have early := effect_leaf built (leaves s (.head _)) hs (elsewhere s (.head _))
      (fun x hx => agree x (unread s (.head _) x hx)) run₁
    have stores := execAll_stores first f
    rw [run₁] at stores
    have late := ih hrest (fun t ht => leaves t (.tail _ ht)) (fun t ht => elsewhere t (.tail _ ht))
      (fun t ht => unread t (.tail _ ht))
      (fun x hx => drives x (hx.mono (List.subset_append_right ..) x))
      (fun x hx => (stores.seen_eq fun driven =>
        hx (drives x (driven.mono (List.subset_append_left ..) x))).trans (agree x hx)) run₂
    simp only [lastMove_cons, lastLoad_cons]
    exact early.trans late

end Gateware.Machine
