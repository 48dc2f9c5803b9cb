import Gateware.Proofs.Bits
import Gateware.Proofs.Statements

/-!
# Footprints

The sets of signals that statements read and assign cover all that a run depends on and all that it
writes.

## Main results

* `outcome_eq_of_agree`: states that agree on both sets either both make a run fail or let it write
  the same.
* `mem_assigned_of_outcome`: what a run writes is among what the statements assign.

## Proof strategy

A clocked frame never sees its own writes, so whatever it reads back of a target it also stores
into; a part that cannot be driven ends the run. In a combinational frame a part can be read back
and then be passed over, once the write to another part has changed what a selector picks. There
the targets must be such that can be driven.
-/
namespace Gateware

namespace Frame

variable {S : Signal → Prop}

/-! ### Clocked runs over states that agree -/

/-- Every clocked pair of frames over the state of `f` reads the same from somewhere. -/
def ReadsAlike {α : Type} (S : Signal → Prop) (f : Frame) (held : Frame → Except SimFault α) :
    Prop :=
  ∀ f' g', Alike S f' g' → f'.clocked = true → f'.state = f.state → held f' = held g'

theorem seen_of_state {f f' : Frame} (clocked : f.clocked = true) (clocked' : f'.clocked = true)
    (same : f'.state = f.state) : f'.seen = f.seen := by
  rw [seen_clocked clocked', seen_clocked clocked, same]

mutual
/-- What can be stored over one state can be stored over the other, and is read back alike. -/
theorem write_transfer (t : Expr) {f f' g : Frame} (h : Alike S f g) (clocked : f.clocked = true)
    (drives : ∀ s ∈ t.drives, S s) (selectors : ∀ s ∈ t.selectors, S s) {v : Int}
    (run : (write t v).run.run f = (.ok (), f')) :
    (∃ g', (write t v).run.run g = (.ok (), g') ∧ Alike S f' g') ∧ ReadsAlike S f (·.holds t) := by
  cases t with
  | signal s =>
    rw [run_write_signal] at run
    cases run
    refine ⟨⟨_, run_write_signal s v g, h.stored s v⟩, ?_⟩
    intro f₁ g₁ h₁ _ _
    simp only [holds, h₁.latest s (drives s (by simp [Expr.drives]))]
  | slice a start stop =>
    rw [run_write_slice] at run
    cases held : f.holds a with
    | error e =>
      rw [held] at run
      cases run
    | ok old =>
      rw [held] at run
      obtain ⟨⟨g', run', h'⟩, reads⟩ := write_transfer a h clocked drives selectors run
      -- The value read back is the same, so the same number is stored below.
      have held' : g.holds a = .ok old := (reads f g h clocked rfl).symm.trans held
      refine ⟨⟨g', ?_, h'⟩, ?_⟩
      · rw [run_write_slice, held']
        exact run'
      · intro f₁ g₁ h₁ clocked₁ same
        simp only [holds, reads f₁ g₁ h₁ clocked₁ same]
  | concat ps =>
    rw [run_write_concat] at run
    obtain ⟨⟨g', run', h'⟩, reads⟩ := writeParts_transfer ps h clocked drives selectors run
    refine ⟨⟨g', (run_write_concat ps v g).trans run', h'⟩, ?_⟩
    intro f₁ g₁ h₁ clocked₁ same
    simp only [holds, reads f₁ g₁ h₁ clocked₁ same]
  | mux s cs =>
    have picked : ∀ {f₁ g₁ : Frame}, Alike S f₁ g₁ → s.eval f₁.seen = s.eval g₁.seen := fun h₁ =>
      h₁.eval fun x hx => selectors x (List.mem_append_left _ hx)
    rw [run_write_mux] at run
    cases value : s.eval f.seen with
    | error e =>
      rw [value] at run
      cases run
    | ok i =>
      rw [value] at run
      obtain ⟨⟨g', run', h'⟩, reads⟩ := writeChoice_transfer cs _ h clocked drives
        (fun x hx => selectors x (List.mem_append_right _ hx)) run
      refine ⟨⟨g', ?_, h'⟩, ?_⟩
      · rw [run_write_mux, ← picked h, value]
        exact run'
      · -- The selector is read from the state, so it picks the same choice in all these frames.
        intro f₁ g₁ h₁ clocked₁ same
        have value₁ : s.eval f₁.seen = .ok i := by rw [seen_of_state clocked clocked₁ same, value]
        simp only [holds, ← picked h₁, value₁]
        exact reads f₁ g₁ h₁ clocked₁ same
  | literal | ref | unary | binary | replicate =>
    rw [write] at run
    cases run

theorem writeParts_transfer (ps : List Expr) {f f' g : Frame} (h : Alike S f g)
    (clocked : f.clocked = true) (drives : ∀ s ∈ Expr.drivesOf ps, S s)
    (selectors : ∀ s ∈ Expr.selectorsOf ps, S s) {bits : Nat}
    (run : (writeParts ps bits).run.run f = (.ok (), f')) :
    (∃ g', (writeParts ps bits).run.run g = (.ok (), g') ∧ Alike S f' g') ∧
      ReadsAlike S f (·.holdsParts ps) := by
  cases ps with
  | nil =>
    rw [run_writeParts_nil] at run
    cases run
    exact ⟨⟨g, run_writeParts_nil bits g, h⟩, fun _ _ _ _ _ => rfl⟩
  | cons p ps =>
    rw [run_writeParts_cons] at run
    have stores := write_stores p (bits &&& mask p.width : Nat) f
    rcases first : (write p (bits &&& mask p.width : Nat)).run.run f with ⟨e | u, f₁⟩
    · rw [first] at run
      cases run
    · rw [first] at run stores
      obtain ⟨⟨g₁, first', h₁⟩, reads⟩ := write_transfer p h clocked
        (fun s hs => drives s (List.mem_append_left _ hs))
        (fun s hs => selectors s (List.mem_append_left _ hs)) first
      obtain ⟨⟨g', rest', h'⟩, readsRest⟩ := writeParts_transfer ps h₁
        (stores.clocked_eq.trans clocked) (fun s hs => drives s (List.mem_append_right _ hs))
        (fun s hs => selectors s (List.mem_append_right _ hs)) run
      refine ⟨⟨g', ?_, h'⟩, ?_⟩
      · rw [run_writeParts_cons, first']
        exact rest'
      · intro f₂ g₂ h₂ clocked₂ same
        simp only [holdsParts, reads f₂ g₂ h₂ clocked₂ same,
          readsRest f₂ g₂ h₂ clocked₂ (same.trans stores.state_eq.symm)]

theorem writeChoice_transfer (cs : List Expr) (i : Nat) {f f' g : Frame} (h : Alike S f g)
    (clocked : f.clocked = true) (drives : ∀ s ∈ Expr.drivesOf cs, S s)
    (selectors : ∀ s ∈ Expr.selectorsOf cs, S s) {v : Int}
    (run : (writeChoice cs i v).run.run f = (.ok (), f')) :
    (∃ g', (writeChoice cs i v).run.run g = (.ok (), g') ∧ Alike S f' g') ∧
      ReadsAlike S f (·.holdsChoice cs i) := by
  cases cs with
  | nil =>
    rw [run_writeChoice_nil] at run
    cases run
    exact ⟨⟨g, run_writeChoice_nil i v g, h⟩, fun _ _ _ _ _ => rfl⟩
  | cons c cs =>
    cases i with
    | zero =>
      rw [writeChoice] at run ⊢
      exact write_transfer c h clocked (fun s hs => drives s (List.mem_append_left _ hs))
        (fun s hs => selectors s (List.mem_append_left _ hs)) run
    | succ i =>
      rw [writeChoice] at run ⊢
      exact writeChoice_transfer cs i h clocked (fun s hs => drives s (List.mem_append_right _ hs))
        (fun s hs => selectors s (List.mem_append_right _ hs)) run
end

/-- `S` holds all that statements with the given targets and sources drive or read. -/
structure Touches (S : Signal → Prop) (ts : List Expr) (sources : List Signal) : Prop where
  drives : ∀ s, DrivenBy ts s → S s
  sources : ∀ s ∈ sources, S s

namespace Touches

variable {ts us : List Expr} {xs ys : List Signal}

theorem left (h : Touches S (ts ++ us) (xs ++ ys)) : Touches S ts xs where
  drives s hs := h.drives s (hs.mono (List.subset_append_left ts us) s)
  sources s hs := h.sources s (List.mem_append_left ys hs)

theorem right (h : Touches S (ts ++ us) (xs ++ ys)) : Touches S us ys where
  drives s hs := h.drives s (hs.mono (List.subset_append_right ts us) s)
  sources s hs := h.sources s (List.mem_append_right xs hs)

/-- What is read first, and what remains. -/
theorem eval_eq {e : Expr} {f g : Frame} (h : Touches S ts (e.mentions ++ xs))
    (alike : Alike S f g) :
    e.eval f.seen = e.eval g.seen ∧ Touches S ts xs :=
  ⟨alike.eval fun s hs => h.sources s (List.mem_append_left xs hs),
    h.drives, fun s hs => h.sources s (List.mem_append_right _ hs)⟩

end Touches

mutual
theorem exec_transfer (s : Stmt) {f f' g : Frame} (h : Alike S f g) (clocked : f.clocked = true)
    (touches : Touches S s.targets s.sources) (run : (exec s).run.run f = (.ok (), f')) :
    ∃ g', (exec s).run.run g = (.ok (), g') ∧ Alike S f' g' := by
  cases s with
  | assign lhs rhs =>
    have same : rhs.eval f.seen = rhs.eval g.seen :=
      h.eval fun s hs => touches.sources s (List.mem_append_right _ hs)
    rw [run_exec_assign] at run ⊢
    rw [← same]
    cases value : rhs.eval f.seen with
    | error e =>
      rw [value] at run
      cases run
    | ok v =>
      rw [value] at run
      exact (write_transfer lhs h clocked (fun s hs => touches.drives s ⟨lhs, .head _, hs⟩)
        (fun s hs => touches.sources s (List.mem_append_left _ hs)) run).1
  | branch cond yes no =>
    obtain ⟨same, inside⟩ := Touches.eval_eq touches h
    rw [run_exec_branch] at run ⊢
    rw [← same]
    cases value : cond.eval f.seen with
    | error e =>
      rw [value] at run
      cases run
    | ok v =>
      rw [value] at run
      by_cases zero : v = 0
      · simp only [if_pos zero] at run ⊢
        exact execAll_transfer no h clocked (Touches.right inside) run
      · simp only [if_neg zero] at run ⊢
        exact execAll_transfer yes h clocked (Touches.left inside) run
  | select test arms =>
    obtain ⟨same, inside⟩ := Touches.eval_eq touches h
    rw [run_exec_select] at run ⊢
    rw [← same]
    cases value : test.eval f.seen with
    | error e =>
      rw [value] at run
      cases run
    | ok v =>
      rw [value] at run
      exact execArms_transfer test.shape v arms h clocked inside run
  | nextState | nextValue =>
    rw [exec] at run
    cases run

/-- A clocked run that comes to its end over one state does so over every state that agrees on what
the statements touch, and writes the same. -/
theorem execAll_transfer (ss : List Stmt) {f f' g : Frame} (h : Alike S f g)
    (clocked : f.clocked = true) (touches : Touches S (Stmt.targetsOf ss) (Stmt.sourcesOf ss))
    (run : (execAll ss).run.run f = (.ok (), f')) :
    ∃ g', (execAll ss).run.run g = (.ok (), g') ∧ Alike S f' g' := by
  cases ss with
  | nil =>
    rw [run_execAll_nil] at run
    cases run
    exact ⟨g, run_execAll_nil g, h⟩
  | cons s ss =>
    obtain ⟨f₁, first, rest⟩ := run_execAll_cons_ok.mp run
    have stores := exec_stores s f
    rw [first] at stores
    obtain ⟨g₁, first', h₁⟩ := exec_transfer s h clocked (Touches.left touches) first
    obtain ⟨g', rest', h'⟩ := execAll_transfer ss h₁ (stores.clocked_eq.trans clocked)
      (Touches.right touches) rest
    exact ⟨g', run_execAll_cons_ok.mpr ⟨g₁, first', rest'⟩, h'⟩

theorem execArms_transfer (shape : Shape) (v : Int) (arms : Arms) {f f' g : Frame}
    (h : Alike S f g) (clocked : f.clocked = true)
    (touches : Touches S (Stmt.targetsOfArms arms) (Stmt.sourcesOfArms arms))
    (run : (execArms shape v arms).run.run f = (.ok (), f')) :
    ∃ g', (execArms shape v arms).run.run g = (.ok (), g') ∧ Alike S f' g' := by
  cases arms with
  | done =>
    rw [run_execArms_done] at run
    cases run
    exact ⟨g, run_execArms_done shape v g, h⟩
  | otherwise body =>
    rw [execArms_otherwise] at run ⊢
    exact execAll_transfer body h clocked touches run
  | arm key body rest =>
    rw [execArms_arm] at run ⊢
    by_cases taken : shape.wrap key.value = v
    · rw [if_pos taken] at run ⊢
      exact execAll_transfer body h clocked (Touches.left touches) run
    · rw [if_neg taken] at run ⊢
      exact execArms_transfer shape v rest h clocked (Touches.right touches) run
end

/-! ### Outcomes -/

/-- What statements write when they run over a state, or nothing if the run fails. -/
def outcome (clocked : Bool) (σ : SimState) (ss : List Stmt) : Option SimState :=
  match (execAll ss).run.run { state := σ, clocked } with
  | (.ok _, f) => some f.writes
  | (.error _, _) => none

theorem outcome_eq_some {clocked : Bool} {σ w : SimState} {ss : List Stmt} :
    outcome clocked σ ss = some w ↔
      ∃ f, (execAll ss).run.run { state := σ, clocked } = (.ok (), f) ∧ f.writes = w := by
  unfold outcome
  rcases (execAll ss).run.run { state := σ, clocked } with ⟨e | u, f⟩
  · constructor
    · intro h
      cases h
    · rintro ⟨_, h, _⟩
      cases h
  · constructor
    · exact fun h => ⟨f, rfl, Option.some.inj h⟩
    · rintro ⟨_, same, h⟩
      cases same
      exact congrArg some h

/-- All that statements read or assign. -/
def Footprint (ss : List Stmt) (s : Signal) : Prop := s ∈ Stmt.read ss ∨ s ∈ Stmt.assigned ss

theorem touches_footprint (ss : List Stmt) :
    Touches (Footprint ss) (Stmt.targetsOf ss) (Stmt.sourcesOf ss) where
  drives _ hs := .inr (Stmt.drivenBy_iff.mp hs)
  sources _ hs := .inl (OrdSet.mem_ofList.mpr hs)

theorem outcome_clocked_le {ss : List Stmt} {σ τ : SimState}
    (agree : ∀ s, Footprint ss s → σ.value s = τ.value s) {w : SimState}
    (h : outcome true σ ss = some w) : outcome true τ ss = some w := by
  obtain ⟨f, run, rfl⟩ := outcome_eq_some.mp h
  obtain ⟨g, run', alike⟩ :=
    execAll_transfer ss (alike_new true agree) rfl (touches_footprint ss) run
  exact outcome_eq_some.mpr ⟨g, run', alike.writes.symm⟩

theorem outcome_blocking_eq {ss : List Stmt} {σ τ : SimState}
    (agree : ∀ s, Footprint ss s → σ.value s = τ.value s) (targets : Stmt.targetFault? ss = none) :
    outcome false σ ss = outcome false τ ss := by
  have touches := touches_footprint ss
  have places : ∀ t ∈ Stmt.targetsOf ss, t.isPlace = true := fun t ht =>
    t.isPlace_of_isTarget (Stmt.targetFault?_eq_none_iff.mp targets t ht)
  have ended := execAll_alike (alike_new false agree) ss ⟨places, touches.drives, touches.sources⟩
  unfold outcome
  generalize (execAll ss).run.run { state := σ, clocked := false } = x at ended ⊢
  generalize (execAll ss).run.run { state := τ, clocked := false } = y at ended ⊢
  obtain ⟨x, f⟩ := x
  obtain ⟨y, g⟩ := y
  obtain ⟨same, alike⟩ := ended
  cases same
  cases x with
  | error e => rfl
  | ok u => exact congrArg some alike.writes

theorem mem_assigned_of_outcome {clocked : Bool} {ss : List Stmt} {σ w : SimState}
    (h : outcome clocked σ ss = some w) {s : Signal} (written : s ∈ w.keys) :
    s ∈ Stmt.assigned ss := by
  obtain ⟨f, run, rfl⟩ := outcome_eq_some.mp h
  have stores := execAll_stores ss { state := σ, clocked }
  rw [run] at stores
  rcases stores.mem_keys written with early | driven
  · exact absurd early (OrdSet.not_mem_empty s)
  · exact Stmt.drivenBy_iff.mp driven

/-- States that agree on what statements read and assign give the same outcome: in a clocked frame
whatever the targets are, in a combinational one if all of them can be driven. Nothing but assigned
signals is written. -/
theorem outcome_eq_of_agree (ss : List Stmt) (σ τ : SimState)
    (agree : ∀ s, s ∈ Stmt.read ss ∨ s ∈ Stmt.assigned ss → σ.value s = τ.value s) :
    outcome true σ ss = outcome true τ ss ∧
    (Stmt.targetFault? ss = none → outcome false σ ss = outcome false τ ss) ∧
    ∀ clocked w, outcome clocked σ ss = some w → ∀ s ∈ w.keys, s ∈ Stmt.assigned ss := by
  refine ⟨?_, outcome_blocking_eq agree, fun clocked w h s => mem_assigned_of_outcome h⟩
  refine Option.ext fun w => ⟨outcome_clocked_le agree, outcome_clocked_le ?_⟩
  intro s hs
  exact (agree s hs).symm

/-! ### A target that is read where nothing is stored -/

open Signal (wire)

namespace Sample

/-- A selector that is set, and a value for a signal beside it. -/
def beside (v : Int) : SimState :=
  ((∅ : SimState).insert (wire 0 "sel" 1) 1).insert (wire 3 "b" 1) v

/-- Clear the selector through a slice of a word whose second bit the selector picks, from `x` and
another place. -/
def clearing (other : Expr) : List Stmt :=
  [.assign (.slice (.concat [wire 0 "sel" 1, .mux (wire 0 "sel" 1) [wire 1 "x" 1, other]]) 0 1)
    (.int 0)]

end Sample

open Sample

theorem beside_agree {s : Signal} (away : s ≠ wire 3 "b" 1) (v w : Int) :
    (beside v).value s = (beside w).value s := by
  simp only [SimState.value, OrdMap.getD, beside, OrdMap.get?_insert, if_neg away]

theorem outcome_clearing :
    (∀ s, s ∈ Stmt.read (clearing (wire 2 "y" 1)) ∨ s ∈ Stmt.assigned (clearing (wire 2 "y" 1)) →
      (beside 0).value s = (beside 1).value s) ∧
    Stmt.targetFault? (clearing (wire 2 "y" 1)) = none ∧
    outcome true (beside 0) (clearing (wire 2 "y" 1)) =
      outcome true (beside 1) (clearing (wire 2 "y" 1)) ∧
    outcome false (beside 0) (clearing (wire 2 "y" 1)) =
      outcome false (beside 1) (clearing (wire 2 "y" 1)) ∧
    (outcome false (beside 1) (clearing (wire 2 "y" 1))).isSome = true := by
  have agree : ∀ s, s ∈ Stmt.read (clearing (wire 2 "y" 1)) ∨
      s ∈ Stmt.assigned (clearing (wire 2 "y" 1)) → (beside 0).value s = (beside 1).value s := by
    intro s hs
    apply beside_agree
    rintro rfl
    revert hs
    decide +kernel
  have targets : Stmt.targetFault? (clearing (wire 2 "y" 1)) = none := by decide +kernel
  obtain ⟨clocked, blocking, -⟩ := outcome_eq_of_agree _ _ _ agree
  exact ⟨agree, targets, clocked, blocking targets, by decide +kernel⟩

theorem beside_holds {v : Int} (h : (Shape.unsigned 1).Holds v) (s : Signal) :
    s.shape.Holds ((beside v).value s) := by
  simp only [SimState.value, OrdMap.getD, beside, OrdMap.get?_insert]
  by_cases hb : s = wire 3 "b" 1
  · subst hb
    exact h
  · rw [if_neg hb]
    by_cases hsel : s = wire 0 "sel" 1
    · subst hsel
      decide
    · rw [if_neg hsel]
      exact s.shape.wrap_eq_self_iff.mp s.wrap_resetValue

/-- A target that cannot be driven may still run: clearing the selector of a choice turns it away
from the part whose old value is then stored elsewhere. That value comes from outside of both
sets. -/
theorem outcome_beyond_sets :
    ∃ (ss : List Stmt) (σ τ : SimState), Stmt.sugarOf? ss = none ∧
      (∀ s : Signal, s.shape.Holds (σ.value s)) ∧ (∀ s : Signal, s.shape.Holds (τ.value s)) ∧
      (∀ s, s ∈ Stmt.read ss ∨ s ∈ Stmt.assigned ss → σ.value s = τ.value s) ∧
      (outcome false σ ss).map (·.value (wire 1 "x" 1)) = some 0 ∧
      (outcome false τ ss).map (·.value (wire 1 "x" 1)) = some 1 := by
  refine ⟨clearing (.unary .invert (wire 3 "b" 1)), beside 1, beside 0, rfl,
    beside_holds (by decide), beside_holds (by decide), ?_, by decide +kernel, by decide +kernel⟩
  intro s hs
  apply beside_agree
  rintro rfl
  revert hs
  decide +kernel

end Frame

end Gateware
