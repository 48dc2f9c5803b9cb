import Gateware.Proofs.Machine.Watching
import Gateware.Proofs.Target.Routing

/-!
# The order in which loads are committed

Every target of a load has one stage, and the stages are committed in the order in which the machine
first mentions their targets, whatever the order is in which a state performs its loads. Loads of
targets that share bits can so overwrite one another the wrong way round.

## Main results

`tick_commits_loads`: after a clock edge every register is as if the loads that the current state
performed had been assigned in the listed order, of each target the last one. A register is also as
if they had been assigned in the order performed, provided that for each of its bits the last load
performed that reaches it is the last one listed.

## Proof strategy

`Loaded` says bit by bit what assigning loads does to a clocked frame: a bit has the value of the
last load that reaches it. Two orders of the same loads therefore agree wherever they agree about
which target that is. The stages hold the values of the last loads, cut to their targets, and
cutting does not change what is stored.
-/
namespace Gateware.Machine

open Gateware.Stmt Gateware.Frame Gateware.Simulator

/-! ### Loads as assignments -/

/-- A load as an assignment. -/
def assignOf : Stmt → Option Stmt
  | .nextValue t v => some (.assign t v)
  | _ => none

/-- The loads among statements as assignments. -/
def assigns (done : List Stmt) : List Stmt := done.filterMap assignOf

/-- The target of a load, if storing into it reaches a bit. -/
def reachOf (ρ : Valuation) (p : Position) : Stmt → Option Expr
  | .nextValue t _ => if (t.bitFor ρ p).isSome then some t else none
  | _ => none

/-- The target of the last load among statements that reaches a bit. -/
def lastReach (ρ : Valuation) (p : Position) (done : List Stmt) : Option Expr :=
  (done.filterMap (reachOf ρ p)).getLast?

/-- The last loads for all targets, in the order in which the machine mentions the targets. -/
def listed (m : Machine) (done : List Stmt) : List Stmt :=
  m.loads.filterMap fun t => (lastLoad t done).map (.nextValue t ·)

/-- Of the loads that reach a bit, the last one performed is the last one listed. -/
def InOrder (m : Machine) (ρ : Valuation) (done : List Stmt) (p : Position) : Prop :=
  lastReach ρ p (m.listed done) = lastReach ρ p done

theorem lastReach_cons (ρ : Valuation) (p : Position) (s : Stmt) (ss : List Stmt) :
    lastReach ρ p (s :: ss) = (lastReach ρ p ss).or (reachOf ρ p s) :=
  getLast?_filterMap_cons (reachOf ρ p) s ss

theorem lastLoad_eq_none_iff {t : Expr} {done : List Stmt} :
    lastLoad t done = none ↔ ∀ v, .nextValue t v ∉ done := by
  rw [lastLoad, List.getLast?_eq_none_iff, List.filterMap_eq_nil_iff]
  constructor
  · intro none v mem
    simpa [loadOf] using none _ mem
  · intro absent u hu
    cases u with
    | nextValue t' v =>
      rw [loadOf, if_neg]
      rintro rfl
      exact absent v hu
    | _ => rfl

theorem exists_of_lastLoad {t v : Expr} {done : List Stmt} (h : lastLoad t done = some v) :
    .nextValue t v ∈ done := by
  obtain ⟨u, hu, load⟩ := List.mem_filterMap.mp (List.mem_of_getLast? h)
  cases u with
  | nextValue t' v' =>
    obtain ⟨rfl, same⟩ := Option.ite_none_right_eq_some.mp load
    cases same
    exact hu
  | _ => cases load

/-- A target that reaches a bit and has a load is not missed. -/
theorem lastLoad_of_lastReach {ρ : Valuation} {p : Position} {done : List Stmt}
    (unreached : lastReach ρ p done = none) {t : Expr} (reaches : (t.bitFor ρ p).isSome) :
    lastLoad t done = none := by
  rw [lastReach, List.getLast?_eq_none_iff, List.filterMap_eq_nil_iff] at unreached
  refine lastLoad_eq_none_iff.mpr fun v mem => ?_
  simpa [reachOf, reaches] using unreached _ mem

theorem lastLoad_filterMap (ts : List Expr) (done : List Stmt) (t : Expr) :
    lastLoad t (ts.filterMap fun t => (lastLoad t done).map (.nextValue t ·)) =
      if t ∈ ts then lastLoad t done else none := by
  induction ts with
  | nil => rfl
  | cons t' ts ih =>
    cases load : lastLoad t' done with
    | none =>
      -- Nothing is listed for this target, and this is what is asked for if it is the target.
      rw [List.filterMap_cons_none (by rw [load]; rfl), ih]
      by_cases same : t = t'
      · subst same
        simp [load]
      · simp [same]
    | some v =>
      rw [List.filterMap_cons_some (by rw [load]; rfl), lastLoad_cons, ih]
      by_cases same : t' = t
      · subst same
        rw [loadOf, if_pos rfl, if_pos List.mem_cons_self, load]
        split <;> rfl
      · simp [loadOf, same, Ne.symm same]

/-- Listing keeps the last load of every target. -/
theorem lastLoad_listed {m : Machine} {done : List Stmt}
    (known : ∀ t v, .nextValue t v ∈ done → t ∈ m.loads) (t : Expr) :
    lastLoad t (m.listed done) = lastLoad t done := by
  rw [listed, lastLoad_filterMap]
  split
  next => rfl
  next unlisted =>
    exact (lastLoad_eq_none_iff.mpr fun v mem => unlisted (known t v mem)).symm

/-! ### What assigning loads does -/

/-- Frames before and after loads are assigned one after the other, with their values in a fixed
state. -/
structure Loaded (ρ : Valuation) (us : List Stmt) (f g : Frame) : Prop where
  state : g.state = f.state
  clocked : g.clocked = f.clocked
  kept : ∀ p, lastReach ρ p us = none → g.bitAt p = f.bitAt p
  routed : ∀ p t, lastReach ρ p us = some t → ∃ i v x, t.bitFor ρ p = some i ∧
    lastLoad t us = some v ∧ v.eval ρ = .ok x ∧ g.bitAt p = (toBits x t.width).testBit i
  ranged : ∀ s t v, .nextValue t v ∈ us → s ∈ t.reached ρ → s.shape.Holds (g.latest s)
  others : ∀ s, (∀ t v, .nextValue t v ∈ us → s ∉ t.reached ρ) → g.latest s = f.latest s

namespace Loaded

variable {ρ : Valuation} {us vs : List Stmt} {f g h : Frame}

theorem nil (ρ : Valuation) (f : Frame) : Loaded ρ [] f f where
  state := rfl
  clocked := rfl
  kept _ _ := rfl
  routed _ _ none := by cases none
  ranged s t v mem := absurd mem List.not_mem_nil
  others _ _ := rfl

/-- A load is assigned before others. Where these go, they win. -/
theorem cons {t v : Expr} {x : Int} (value : v.eval ρ = .ok x)
    (first : Routed f g (t.reached ρ) (t.bitFor ρ) (toBits x t.width)) (rest : Loaded ρ us g h) :
    Loaded ρ (.nextValue t v :: us) f h where
  state := rest.state.trans first.state
  clocked := rest.clocked.trans first.clocked
  kept p unreached := by
    rw [lastReach_cons] at unreached
    obtain ⟨late, early⟩ := Option.or_eq_none_iff.mp unreached
    have missed : t.bitFor ρ p = none := by simpa [reachOf] using early
    rw [rest.kept p late, first.kept p missed]
  routed p t' reach := by
    rw [lastReach_cons] at reach
    rcases Option.or_eq_some_iff.mp reach with late | ⟨late, early⟩
    · obtain ⟨i, v', x', found, load, value', bit⟩ := rest.routed p t' late
      exact ⟨i, v', x', found, by rw [lastLoad_cons, load]; rfl, value', bit⟩
    · obtain ⟨reaches, same⟩ := Option.ite_none_right_eq_some.mp early
      cases same
      obtain ⟨i, found⟩ := Option.isSome_iff_exists.mp reaches
      refine ⟨i, v, x, found, ?_, value, ?_⟩
      · -- No later load has this target, for it would reach the bit too.
        rw [lastLoad_cons, lastLoad_of_lastReach late reaches, Option.none_or, loadOf, if_pos rfl]
      · rw [rest.kept p late, first.routed p i found]
  ranged s t' v' mem hs := by
    by_cases later : ∃ t v, .nextValue t v ∈ us ∧ s ∈ t.reached ρ
    · obtain ⟨t, v, mem, hs⟩ := later
      exact rest.ranged s t v mem hs
    · rcases List.mem_cons.mp mem with same | mem
      · cases same
        rw [rest.others s fun t v mem hs => later ⟨t, v, mem, hs⟩]
        exact first.ranged s hs
      · exact absurd ⟨t', v', mem, hs⟩ later
  others s untouched := by
    rw [rest.others s fun t v mem => untouched t v (.tail _ mem),
      first.others s (untouched t v (.head _))]

/-- A statement that is no load changes nothing. -/
theorem skip {u : Stmt} (other : assignOf u = none) (rest : Loaded ρ us f g) :
    Loaded ρ (u :: us) f g := by
  have load (t : Expr) : lastLoad t (u :: us) = lastLoad t us := by
    rw [lastLoad_cons]
    cases u with
    | nextValue => cases other
    | _ => exact Option.or_none
  have reach (p : Position) : lastReach ρ p (u :: us) = lastReach ρ p us := by
    rw [lastReach_cons]
    cases u with
    | nextValue => cases other
    | _ => exact Option.or_none
  have mem {t v : Expr} (h : .nextValue t v ∈ u :: us) : .nextValue t v ∈ us := by
    rcases List.mem_cons.mp h with rfl | h
    · cases other
    · exact h
  exact {
    state := rest.state
    clocked := rest.clocked
    kept := fun p h => rest.kept p (reach p ▸ h)
    routed := fun p t h => by
      rw [load]
      exact rest.routed p t (reach p ▸ h)
    ranged := fun s t v h => rest.ranged s t v (mem h)
    others := fun s h => rest.others s fun t v h' => h t v (.tail _ h') }

section Agreeing

variable (first : Loaded ρ us f g) (second : Loaded ρ vs f h)
  (same : ∀ t, lastLoad t us = lastLoad t vs)
include first second same

/-- Loads with the same last values leave the same bit where they agree about the last target that
reaches it. -/
theorem bitAt_eq {p : Position} (agree : lastReach ρ p us = lastReach ρ p vs) :
    g.bitAt p = h.bitAt p := by
  cases reach : lastReach ρ p us with
  | none => rw [first.kept p reach, second.kept p (agree ▸ reach)]
  | some t =>
    obtain ⟨i, v, x, found, load, value, bit⟩ := first.routed p t reach
    obtain ⟨i', v', x', found', load', value', bit'⟩ := second.routed p t (agree ▸ reach)
    -- The target determines which bit it is and which load it comes from.
    cases found.symm.trans found'
    cases (same t ▸ load).symm.trans load'
    cases value.symm.trans value'
    rw [bit, bit']

theorem latest_eq {r : Signal}
    (agree : ∀ k < r.width, lastReach ρ (r, k) us = lastReach ρ (r, k) vs) :
    g.latest r = h.latest r := by
  have bits (k : Nat) : g.bitAt (r, k) = h.bitAt (r, k) := by
    rcases Nat.lt_or_ge k r.width with inside | beyond
    · exact bitAt_eq first second same (agree k inside)
    · rw [bitAt, bitAt, testBit_eq_false_of_lt (toBits_lt ..) beyond,
        testBit_eq_false_of_lt (toBits_lt ..) beyond]
  have shared (t : Expr) : (∃ v, .nextValue t v ∈ us) ↔ ∃ v, .nextValue t v ∈ vs := by
    have both : (∀ v, .nextValue t v ∉ us) ↔ ∀ v, .nextValue t v ∉ vs := by
      rw [← lastLoad_eq_none_iff, ← lastLoad_eq_none_iff, same t]
    simpa only [not_forall, not_not] using not_congr both
  -- Equal bits are equal numbers only within the shape. Both orders cut the register to its shape,
  -- or neither touches it.
  by_cases touched : ∃ t v, .nextValue t v ∈ us ∧ r ∈ t.reached ρ
  · obtain ⟨t, v, mem, hr⟩ := touched
    obtain ⟨v', mem'⟩ := (shared t).mp ⟨v, mem⟩
    exact latest_eq_of_bits bits (first.ranged r t v mem hr) (second.ranged r t v' mem' hr)
  · have untouched : ∀ t v, .nextValue t v ∈ vs → r ∉ t.reached ρ := by
      intro t v mem hr
      obtain ⟨v', mem'⟩ := (shared t).mpr ⟨v, mem⟩
      exact touched ⟨t, v', mem', hr⟩
    rw [first.others r fun t v mem hr => touched ⟨t, v, mem, hr⟩, second.others r untouched]

end Agreeing

end Loaded

/-- Loads of targets that can be stored to, with values, are assigned without a fault. -/
theorem run_assigns {us : List Stmt} {f : Frame} (clocked : f.clocked = true)
    (each : ∀ t v, .nextValue t v ∈ us → t.Storable ∧ ∃ x, v.eval f.state.value = .ok x) :
    ∃ g, (execAll (assigns us)).run.run f = (.ok (), g) ∧ Loaded f.state.value us f g := by
  induction us generalizing f with
  | nil => exact ⟨f, run_execAll_nil f, .nil _ f⟩
  | cons u us ih =>
    have tail := fun t v mem => each t v (.tail _ mem)
    cases u with
    | nextValue t v =>
      obtain ⟨storable, x, value⟩ := each t v (.head _)
      obtain ⟨g, run, routed⟩ := write_routes storable x clocked
      obtain ⟨h, later, loaded⟩ := ih (routed.clocked.trans clocked) (routed.state ▸ tail)
      refine ⟨h, run_execAll_cons_ok.mpr ⟨g, ?_, later⟩, .cons value routed (routed.state ▸ loaded)⟩
      rw [run_exec_assign, seen_clocked clocked, value]
      exact run
    | _ =>
      obtain ⟨g, run, loaded⟩ := ih clocked tail
      exact ⟨g, run, loaded.skip rfl⟩

/-- Assignments to whole signals do the same to a signal in two frames that agree about it. -/
theorem run_puts {us : List Stmt} (puts : ∀ u ∈ us, ∃ w e, u = .assign (.signal w) e)
    {f g h : Frame} (clocked : f.clocked = true) (clocked' : g.clocked = true)
    (state : g.state = f.state) (run : (execAll us).run.run f = (.ok (), h)) :
    ∃ k, (execAll us).run.run g = (.ok (), k) ∧
      ∀ x, f.latest x = g.latest x → h.latest x = k.latest x := by
  induction us generalizing f g with
  | nil =>
    rw [run_execAll_nil] at run
    cases run
    exact ⟨g, run_execAll_nil g, fun x => id⟩
  | cons u us ih =>
    obtain ⟨⟨w, e, rfl⟩, others⟩ := List.forall_mem_cons.mp puts
    obtain ⟨f', first, rest⟩ := run_execAll_cons_ok.mp run
    obtain ⟨v, value, rfl⟩ := run_assign_signal_ok.mp first
    -- Clocked frames read the state, which is the same in both.
    rw [seen_clocked clocked, ← state, ← seen_clocked clocked'] at value
    obtain ⟨k, later, same⟩ := ih others (f := f.stored w v) (g := g.stored w v) clocked clocked'
      state rest
    refine ⟨k, run_execAll_cons_ok.mpr ⟨_, run_assign_signal_ok.mpr ⟨v, value, rfl⟩, later⟩, ?_⟩
    intro x agree
    exact same x (by rw [latest_stored, latest_stored, agree])

namespace Parts

/-- What is clocked besides the state and the loads. -/
def markers (m : Machine) (p : Parts) : List Stmt :=
  p.start.toList.map (fun s => .assign s (.int 0)) ++ p.after m

theorem markers_put (m : Machine) (p : Parts) :
    ∀ u ∈ p.markers m, ∃ w e, u = .assign (.signal w) e := by
  intro u hu
  rcases List.mem_append.mp hu with hu | hu
  · obtain ⟨s, -, rfl⟩ := List.mem_map.mp hu
    exact ⟨s, _, rfl⟩
  · obtain ⟨event, s, w, -, -, rfl⟩ := mem_after.mp hu
    exact ⟨w, _, rfl⟩

namespace Built

variable {m : Machine} {supply : Supply} {p : Parts} (built : p.Built m supply)
include built

/-- The stage of a load does what its last load does, if there is one. -/
theorem run_register {l : Load} (hl : l ∈ p.loads) (storable : l.target.Storable) {σ : SimState}
    {code : Nat} {done : List Stmt} (decided : Decided m p σ.value code done) {f : Frame}
    (clocked : f.clocked = true) (state : f.state = σ) :
    (exec (register l)).run.run f =
      (lastLoad l.target done).elim (.ok (), f) fun v => (exec (.assign l.target v)).run.run f := by
  subst state
  rw [register, run_exec_branch, seen_clocked clocked]
  simp only [Expr.eval]
  cases load : lastLoad l.target done with
  | none =>
    rw [if_pos (decided.hold l hl load), run_execAll_nil]
    rfl
  | some v =>
    obtain ⟨enable, x, value, next⟩ := decided.loads l hl v load
    -- The stage holds the value cut to the target, which stores the same.
    have cut : toBits (f.state.value l.next) l.target.width = toBits x l.target.width := by
      rw [next, built.nexts l hl]
      exact Shape.toBits_wrap ..
    rw [if_neg (by rw [enable]; decide), run_execAll_singleton, run_exec_assign,
      seen_clocked clocked, Option.elim_some, run_exec_assign, seen_clocked clocked, value]
    exact write_congr storable cut f

/-- The stages do what the last loads do, assigned in the listed order. -/
theorem run_registers (storable : ∀ l ∈ p.loads, l.target.Storable) {σ : SimState} {code : Nat}
    {done : List Stmt} (decided : Decided m p σ.value code done) {f : Frame}
    (clocked : f.clocked = true) (state : f.state = σ) :
    (execAll (p.loads.map register)).run.run f = (execAll (assigns (m.listed done))).run.run f := by
  -- By induction on the stages that are left. The frame changes from stage to stage, but not its
  -- state.
  have each (ls : List Load) (known : ∀ l ∈ ls, l ∈ p.loads) {f : Frame}
      (clocked : f.clocked = true) (state : f.state = σ) :
      (execAll (ls.map register)).run.run f = (execAll (assigns ((ls.map (·.target)).filterMap
        fun t => (lastLoad t done).map (.nextValue t ·)))).run.run f := by
    induction ls generalizing f with
    | nil => rfl
    | cons l ls ih =>
      obtain ⟨hl, others⟩ := List.forall_mem_cons.mp known
      rw [List.map_cons, run_execAll_cons,
        built.run_register hl (storable l hl) decided clocked state, List.map_cons]
      cases load : lastLoad l.target done with
      | none =>
        rw [List.filterMap_cons_none (by rw [load]; rfl)]
        exact ih others clocked state
      | some v =>
        obtain ⟨-, x, value, -⟩ := decided.loads l hl v load
        obtain ⟨g, run, routed⟩ := write_routes (storable l hl) x clocked
        have stored : (exec (.assign l.target v)).run.run f = (.ok (), g) := by
          rw [run_exec_assign, seen_clocked clocked, state, value]
          exact run
        rw [List.filterMap_cons_some (by rw [load]; rfl)]
        change _ = (execAll (.assign l.target v :: assigns _)).run.run f
        rw [run_execAll_cons, Option.elim_some, stored]
        exact ih others (routed.clocked.trans clocked) (routed.state.trans state)
  rw [listed, ← built.targets]
  exact each p.loads (fun _ => id) clocked state

section Loading

variable {domain : String} {first : Simulator} (loaded : Loads (p.netlist m domain) first)
include loaded

omit built in
theorem storable_target {l : Load} (hl : l ∈ p.loads) : l.target.Storable := by
  have target : l.target ∈ targetsOf (p.sync m) := by
    rw [targetsOf_eq]
    exact List.mem_flatMap.mpr
      ⟨register l, .tail _ (List.mem_append_left _ (List.mem_map_of_mem hl)), .head _⟩
  exact l.target.storable_of_isTarget
    (loaded.wellDriven.syncTargets (domain, p.sync m) (.head _) _ target)
    (Parts.refs_eq loaded (.inr (targetsOf_subset_exprsOf _ target)))

/-- Whatever a state loads has a value. -/
theorem eval_of_leaf {k : Nat} {s : String} {body : List Stmt}
    (place : m.bodies[k]? = some (s, body)) {t v : Expr} (leaf : .nextValue t v ∈ leavesOf body)
    (ρ : Valuation) : (∃ l ∈ p.loads, l.target = t) ∧ ∃ x, v.eval ρ = .ok x := by
  obtain ⟨ts, place', plain⟩ := built.body_at place
  obtain ⟨l, hl, same, -, staged⟩ := built.stage_of_leaf (List.mem_of_getElem? place) plain leaf
  refine ⟨⟨l, hl, same⟩, Expr.eval_ok ρ v (Parts.refs_eq loaded (.inl ?_))⟩
  rw [Parts.comb, exprsOf_eq, List.flatMap_append, ← exprsOf_eq]
  exact List.mem_append_left _ ((Parts.selection_covers (List.mem_of_getElem? place')).2
    (exprs_leavesOf ts staged (.tail _ (.head _))))

/-- What the clocked statements write, told by the loads that were performed. -/
theorem run_sync_loads {σ : SimState} {code : Nat} {done : List Stmt}
    (decided : Decided m p σ.value code done)
    (each : ∀ t v, .nextValue t v ∈ done →
      (∃ l ∈ p.loads, l.target = t) ∧ ∃ x, v.eval σ.value = .ok x) {g : Frame}
    (run : (execAll (p.sync m)).run.run { state := σ, clocked := true } = (.ok (), g)) :
    (execAll (.assign p.state p.nextState :: (assigns (m.listed done) ++ p.markers m))).run.run
        { state := σ, clocked := true } = (.ok (), g) ∧
      ∃ h, (execAll (.assign p.state p.nextState :: (assigns done ++ p.markers m))).run.run
          { state := σ, clocked := true } = (.ok (), h) ∧
        ∀ r, (∀ k < r.width, m.InOrder σ.value done (r, k)) → g.latest r = h.latest r := by
  obtain ⟨f, move, run⟩ := run_execAll_cons_ok.mp run
  obtain ⟨f₁, stages, others⟩ := run_execAll_append_ok.mp run
  obtain ⟨v, -, rfl⟩ := run_assign_signal_ok.mp move
  have storable : ∀ l ∈ p.loads, l.target.Storable := fun l hl => storable_target loaded hl
  rw [built.run_registers storable decided rfl rfl] at stages
  have known : ∀ t v, .nextValue t v ∈ done → t ∈ m.loads := by
    intro t v mem
    obtain ⟨⟨l, hl, rfl⟩, -⟩ := each t v mem
    exact built.targets ▸ List.mem_map_of_mem hl
  have same := lastLoad_listed known
  -- What is listed was performed, so both orders can be assigned.
  have ready : ∀ t v, .nextValue t v ∈ done → t.Storable ∧ ∃ x, v.eval σ.value = .ok x := by
    intro t v mem
    obtain ⟨⟨l, hl, rfl⟩, value⟩ := each t v mem
    exact ⟨storable l hl, value⟩
  have ready' : ∀ t v, .nextValue t v ∈ m.listed done →
      t.Storable ∧ ∃ x, v.eval σ.value = .ok x := by
    intro t v mem
    obtain ⟨t', -, load⟩ := List.mem_filterMap.mp mem
    obtain ⟨v', load, stmt⟩ := Option.map_eq_some_iff.mp load
    cases stmt
    exact ready t v (exists_of_lastLoad load)
  obtain ⟨f₁', run₁, listed⟩ :=
    run_assigns (f := stored { state := σ, clocked := true } p.state v) rfl ready'
  cases stages.symm.trans run₁
  obtain ⟨h₁, run₂, performed⟩ :=
    run_assigns (f := stored { state := σ, clocked := true } p.state v) rfl ready
  obtain ⟨h, later, agree⟩ := run_puts (p.markers_put m) listed.clocked performed.clocked
    (performed.state.trans listed.state.symm) others
  refine ⟨run_execAll_cons_ok.mpr ⟨_, move, run_execAll_append_ok.mpr ⟨_, run₁, others⟩⟩,
    h, run_execAll_cons_ok.mpr ⟨_, move, run_execAll_append_ok.mpr ⟨_, run₂, later⟩⟩,
    fun r order => agree r (listed.latest_eq performed same order)⟩

end Loading

end Built

end Parts

/-- One clock edge in a settled simulation of a machine does to every register what its clocked
statements do when the stages of the loads are replaced by the loads that the current state
performed: by the last one for every target, in the order in which the machine mentions the targets.
A register is also as if all of these loads were assigned in the order performed, provided that for
each of its bits the last load performed that reaches the bit is the last one listed. -/
theorem tick_commits_loads (m : Machine) (domain : String) (supply rest : Supply) (c : Compiled)
    (compiled : (m.compile domain).run.run supply = (.ok c, rest)) (distinct : m.states.Nodup)
    (older : ∀ s ∈ m.driven, s.id.index < supply.nextSignal)
    (unread : ∀ x ∈ sourcesOf (m.bodies.flatMap (·.2)), x ∉ assigned c.netlist.comb)
    (first sim : Simulator) (started : Starts c.netlist first)
    (design : sim = { first with state := sim.state, cycles := sim.cycles })
    (settled : settle.run.run sim = (.ok (), sim)) (s : String) (body : List Stmt)
    (declared : (s, body) ∈ m.bodies) (shows : m.Shows c sim.peek s) :
    ∃ done after move stages others committed performed,
      performedOf sim.peek body = .ok done ∧
      (tick (m.domain.getD domain)).run.run sim = (.ok (), after) ∧
      c.netlist.sync = .ofList [(m.domain.getD domain, move :: (stages ++ others))] ∧
      stages.length = m.loads.length ∧
      (execAll (move :: (assigns (m.listed done) ++ others))).run.run
        { state := sim.state, clocked := true } = (.ok (), committed) ∧
      (execAll (move :: (assigns done ++ others))).run.run
        { state := sim.state, clocked := true } = (.ok (), performed) ∧
      ∀ r ∈ assigned (move :: (stages ++ others)),
        after.peek r = committed.latest r ∧
        ((∀ k < r.width, m.InOrder sim.peek done (r, k)) → after.peek r = performed.latest r) := by
  obtain ⟨p, built, state, -, netlist⟩ := compile_ok compiled
  rw [netlist] at unread started ⊢
  obtain ⟨fresh, loaded, -, rfl⟩ := started
  obtain ⟨k, place⟩ := List.mem_iff_getElem?.mp declared
  obtain ⟨code, known, value⟩ := shows
  have number : m.code? s = some k := code?_of_place distinct (by
    rw [states, List.getElem?_map, place]
    rfl)
  cases known.symm.trans number
  rw [design] at settled
  obtain ⟨done, performs, decided⟩ := built.decided older loaded distinct unread
    (Parts.solved loaded settled) place (state ▸ value)
  obtain ⟨g, run⟩ := Parts.Built.run_sync_ok loaded sim.state
  obtain ⟨after, ticked, registers⟩ := Parts.Built.run_tick_settled loaded settled run
  obtain ⟨committed, performed, ordered, agree⟩ := built.run_sync_loads loaded decided
    (fun t v mem => built.eval_of_leaf loaded place (performedOf_subset body performs mem) _) run
  refine ⟨done, after, _, p.loads.map Parts.register, p.markers m, g, performed, performs,
    design ▸ ticked, rfl, ?_, committed, ordered, fun r hr => ?_⟩
  · rw [List.length_map, ← built.targets, List.length_map]
  · have loads : after.peek r = g.latest r := value_of_written run (registers r hr)
    exact ⟨loads, fun order => loads.trans (agree r order)⟩

namespace Sample

/-- A register of which parts are loaded. -/
def word : Signal := ⟨⟨1⟩, "word", .unsigned 8, 0, false⟩

def nibble : Signal := ⟨⟨2⟩, "nibble", .unsigned 4, 0, false⟩

/-- What `pack` does in its first state: it loads a register, then a window of it, then a part of it
together with another register. -/
def packing : List Stmt :=
  [.nextValue word (.int 1), .nextValue word (.int 255), .nextValue (.slice word 2 6) (.int 0),
    .nextValue (.concat [nibble, .slice word 4 8]) (.int 90), .nextState "clear"]

def pack : Machine where
  name := "pack"
  bodies := [("pack", packing), ("clear", [.nextValue nibble (.int 0), .nextState "pack"])]

end Sample

open Sample

theorem pack_trial : pack.trial ⟨10, 0⟩ (fun c sim => decide
    ((∀ x ∈ sourcesOf (pack.bodies.flatMap Prod.snd), x ∉ assigned c.netlist.comb) ∧
      sim.settled.1 = .ok () ∧ sim.settled.2 = sim.state ∧ sim.peek c.state = 0 ∧
      word ∈ assigned (c.netlist.sync.getD "sys" []) ∧
      (∀ k < word.width, lastReach sim.peek (word, k) (pack.listed packing) =
        lastReach sim.peek (word, k) packing) ∧
      ((tick "sys").run.run sim).2.peek word = 83)) = true := by
  decide +kernel

/-- All bits of the register are last reached by the load that is listed last. -/
theorem pack_commits_in_order :
    ∃ c rest first after move stages others performed,
      (pack.compile "sys").run.run ⟨10, 0⟩ = (.ok c, rest) ∧ start c.netlist = .ok first ∧
      pack.Shows c first.peek "pack" ∧ (tick "sys").run.run first = (.ok (), after) ∧
      c.netlist.sync = .ofList [("sys", move :: (stages ++ others))] ∧
      (execAll (move :: (assigns packing ++ others))).run.run
        { state := first.state, clocked := true } = (.ok (), performed) ∧
      after.peek word = performed.latest word ∧ after.peek word = 83 := by
  obtain ⟨c, rest, first, compiled, started, checked⟩ := of_trial pack_trial
  obtain ⟨unread, ended, same, state, register, order, value⟩ := of_decide_eq_true checked
  have settled : settle.run.run first = (.ok (), first) :=
    (run_settle_eq_iff first).mpr (Prod.ext ended same)
  have shows : pack.Shows c first.peek "pack" := ⟨0, by decide +kernel, state⟩
  obtain ⟨done, after, move, stages, others, committed, performed, performs, ticked, sync, -, -,
      run, registers⟩ :=
    tick_commits_loads pack "sys" ⟨10, 0⟩ rest c compiled (by decide +kernel) (by decide +kernel)
      unread first first (starts_of_start started) rfl settled "pack" packing (.head _) shows
  cases performs
  have clocked : c.netlist.sync.getD "sys" [] = move :: (stages ++ others) := by
    rw [sync]
    change (OrdMap.insert ∅ "sys" _).getD "sys" [] = _
    rw [OrdMap.getD, OrdMap.get?_insert, if_pos rfl]
    rfl
  have last : after.peek word = 83 := by
    rw [← value]
    exact congrArg (·.2.peek word) ticked.symm
  exact ⟨c, rest, first, after, move, stages, others, performed, compiled, started, shows, ticked,
    sync, run, (registers word (clocked ▸ register)).2 order, last⟩

namespace Sample

/-- What `refill` does in its second state: it loads a register and then the lower half of it. -/
def refilling : List Stmt :=
  [.nextValue word (.int 255), .nextValue (.slice word 0 4) (.int 3)]

/-- The lower half is mentioned before the register is. -/
def refill : Machine where
  name := "refill"
  bodies := [
    ("low", [.nextValue (.slice word 0 4) (.int 1), .nextState "full"]), ("full", refilling)]

end Sample

theorem refill_trial : refill.trial ⟨10, 0⟩ (fun c sim => decide
    ((∀ x ∈ sourcesOf (refill.bodies.flatMap Prod.snd), x ∉ assigned c.netlist.comb) ∧
      ((tick "sys").run.run sim).1 = .ok () ∧
      ((tick "sys").run.run sim).2.peek c.state = 1 ∧
      ((tick "sys").run.run ((tick "sys").run.run sim).2).1 = .ok () ∧
      ((tick "sys").run.run ((tick "sys").run.run sim).2).2.peek word = 255 ∧
      ((execAll (assigns refilling)).run.run
        { state := ((tick "sys").run.run sim).2.state, clocked := true }).1 = .ok () ∧
      ((execAll (assigns refilling)).run.run
        { state := ((tick "sys").run.run sim).2.state, clocked := true }).2.latest word = 243)) =
    true := by
  decide +kernel

/-- The load of the lower half comes last, but the register is committed last. -/
theorem refill_loses_half :
    ∃ c rest first sim after performed,
      (refill.compile "sys").run.run ⟨10, 0⟩ = (.ok c, rest) ∧
      (∀ x ∈ sourcesOf (refill.bodies.flatMap (·.2)), x ∉ assigned c.netlist.comb) ∧
      start c.netlist = .ok first ∧ (tick "sys").run.run first = (.ok (), sim) ∧
      refill.Shows c sim.peek "full" ∧ performedOf sim.peek refilling = .ok refilling ∧
      (tick "sys").run.run sim = (.ok (), after) ∧
      (execAll (assigns refilling)).run.run { state := sim.state, clocked := true } =
        (.ok (), performed) ∧
      performed.latest word = 243 ∧ after.peek word = 255 := by
  obtain ⟨c, rest, first, compiled, started, checked⟩ := of_trial refill_trial
  obtain ⟨unread, ticked, state, ticked', after, ended, performed⟩ := of_decide_eq_true checked
  exact ⟨c, rest, first, _, _, _, compiled, unread, started, Prod.ext ticked rfl,
    ⟨1, by decide +kernel, state⟩, rfl, Prod.ext ticked' rfl, Prod.ext ended rfl, performed, after⟩

end Gateware.Machine
