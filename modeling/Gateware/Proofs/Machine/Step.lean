import Gateware.Proofs.Machine.Selection
import Gateware.Proofs.Stability

/-!
# A machine takes its steps

In a settled simulation of a machine, one clock edge moves the state register as the statements of
the current state say, and loads the registers that they load.

## Main results

* `decided`: in a settled simulation, the logic shows what the statements of the current state
  decide.
* `tick_performs_state`: one clock edge performs the statements of the current state.

## Proof strategy

The simulated statements are the assembled parts in order: the events before, the selection of a
body by the state, the events after, and one load for each register. The selection picks the body of
the state, whose effect is that of its statements, and the other parts drive signals of their own.
-/
namespace Gateware

/-- Without domains there are no resets to take hold. -/
theorem Simulator.settled_of_no_domains {sim : Simulator} (none : sim.domains = []) :
    sim.settled = pass sim.memories sim.processes sim.state := by
  rw [settled, none]
  rcases pass sim.memories sim.processes sim.state with ⟨e | u, σ⟩ <;> rfl

theorem Simulator.run_settle_of_no_domains {sim : Simulator} (none : sim.domains = []) :
    settle.run.run sim =
      ((pass sim.memories sim.processes sim.state).1,
        { sim with state := (pass sim.memories sim.processes sim.state).2 }) := by
  rw [run_settle, settled_of_no_domains none]

namespace Machine

open Gateware.Stmt Gateware.Frame Gateware.Simulator

/-- The signals that watch events. -/
def watchers (m : Machine) : List Signal :=
  [Event.beforeEntering, .beforeLeaving, .afterEntering, .afterLeaving].flatMap fun e =>
    (m.events e).values

/-- The signals that a machine's statements and events drive. -/
def driven (m : Machine) : List Signal :=
  (targetsOf (m.bodies.flatMap (·.2))).flatMap Expr.drives ++ m.watchers

theorem drivenBy_drive {e : Edges} {event : Event} {edge : String → Expr} {x : Signal}
    (h : DrivenBy (targetsOf (e.drive event edge)) x) : x ∈ e.machine.watchers := by
  obtain ⟨t, ht, hx⟩ := h
  rw [targetsOf_eq] at ht
  obtain ⟨s, hs, ht⟩ := List.mem_flatMap.mp ht
  obtain ⟨entry, listed, rfl⟩ := List.mem_map.mp hs
  obtain rfl := List.mem_singleton.mp ht
  obtain rfl := List.mem_singleton.mp hx
  refine List.mem_flatMap.mpr ⟨event, ?_, List.mem_map.mpr ⟨entry, listed, rfl⟩⟩
  cases event <;> simp

theorem drivenBy_append {ss ts : List Stmt} {x : Signal} :
    DrivenBy (targetsOf (ss ++ ts)) x ↔ DrivenBy (targetsOf ss) x ∨ DrivenBy (targetsOf ts) x := by
  rw [targetsOf_eq, List.flatMap_append, ← targetsOf_eq, ← targetsOf_eq]
  simp only [DrivenBy, List.mem_append, or_and_right, exists_or]

theorem drivenBy_targetsOf {ss : List Stmt} {x : Signal} :
    DrivenBy (targetsOf ss) x ↔ ∃ s ∈ ss, DrivenBy s.targets x := by
  simp only [targetsOf_eq, DrivenBy, List.mem_flatMap]
  constructor
  · rintro ⟨t, ⟨s, hs, ht⟩, hx⟩
    exact ⟨s, hs, t, ht, hx⟩
  · rintro ⟨s, hs, t, ht, hx⟩
    exact ⟨t, ⟨s, hs, ht⟩, hx⟩

/-- A register that is written gets the new number, and one that is not keeps its own. -/
theorem value_of_written {ss : List Stmt} {σ τ : SimState} {g : Frame} {x : Signal}
    (run : (execAll ss).run.run { state := σ, clocked := true } = (.ok (), g))
    (register : τ.get? x = (g.writes.get? x).or (σ.get? x)) : τ.value x = g.latest x := by
  have unchanged := execAll_stores ss { state := σ, clocked := true }
  rw [run] at unchanged
  rw [SimState.value, OrdMap.getD, register, latest, unchanged.state_eq]
  cases g.writes.get? x <;> rfl

/-- On a clock edge, a signal that only one statement drives gets what that statement writes. -/
theorem run_only (pre post : List Stmt) {s : Stmt} {x : Signal} {f g : Frame}
    (before : ¬ DrivenBy (targetsOf pre) x) (after : ¬ DrivenBy (targetsOf post) x)
    (run : (execAll (pre ++ s :: post)).run.run f = (.ok (), g)) :
    ∃ f' h, f'.clocked = f.clocked ∧ f'.state = f.state ∧
      f'.writes.get? x = f.writes.get? x ∧ (exec s).run.run f' = (.ok (), h) ∧
      g.writes.get? x = h.writes.get? x := by
  obtain ⟨f', run₁, rest⟩ := run_execAll_append_ok.mp run
  obtain ⟨h, here, run₂⟩ := run_execAll_cons_ok.mp rest
  have first := execAll_stores pre f
  rw [run₁] at first
  have last := execAll_stores post h
  rw [run₂] at last
  exact ⟨f', h, first.clocked_eq, first.state_eq, first.writes_eq before, here,
    last.writes_eq after⟩

namespace Parts

variable {m : Machine} {p : Parts} {x : Signal}

theorem drivenBy_before (h : DrivenBy (targetsOf (p.before m)) x) : x ∈ m.watchers :=
  (drivenBy_append.mp h).elim drivenBy_drive drivenBy_drive

theorem drivenBy_after (h : DrivenBy (targetsOf (p.after m)) x) : x ∈ m.watchers :=
  (drivenBy_append.mp h).elim drivenBy_drive drivenBy_drive

theorem state_mem_assigned_sync : p.state ∈ assigned (p.sync m) :=
  drivenBy_iff.mp ⟨.signal p.state, .head _, .head _⟩

theorem drivenBy_registers {ls : List Load} (h : DrivenBy (targetsOf (ls.map register)) x) :
    ∃ l ∈ ls, x ∈ l.target.drives := by
  obtain ⟨u, hu, t, ht, hx⟩ := drivenBy_targetsOf.mp h
  obtain ⟨l, hl, rfl⟩ := List.mem_map.mp hu
  obtain rfl := List.mem_singleton.mp ht
  exact ⟨l, hl, hx⟩

theorem drivenBy_rest
    (h : DrivenBy (targetsOf (p.start.toList.map (fun s => .assign s (.int 0)) ++ p.after m)) x) :
    x ∈ p.start.toList ∨ x ∈ m.watchers := by
  rcases drivenBy_append.mp h with start | after
  · obtain ⟨u, hu, t, ht, hx⟩ := drivenBy_targetsOf.mp start
    obtain ⟨s, hs, rfl⟩ := List.mem_map.mp hu
    obtain rfl := List.mem_singleton.mp ht
    obtain rfl := List.mem_singleton.mp hx
    exact .inl hs
  · exact .inr (drivenBy_after after)

/-- A register is driven by its own load. -/
theorem target_mem_assigned_sync {l : Load} (hl : l ∈ p.loads) (hx : x ∈ l.target.drives) :
    x ∈ assigned (p.sync m) := by
  refine drivenBy_iff.mp ⟨l.target, ?_, hx⟩
  rw [targetsOf_eq]
  exact List.mem_flatMap.mpr
    ⟨register l, .tail _ (List.mem_append_left _ (List.mem_map_of_mem hl)), .head _⟩

section Netlist

variable {domain : String} {first : Simulator} (loaded : Loads (p.netlist m domain) first)
include loaded

theorem memories_eq : first.memories = [] := (Except.ok.inj loaded.memories).symm

theorem refs_eq {e : Expr} (he : e ∈ exprsOf (p.comb m) ∨ e ∈ exprsOf (p.sync m)) :
    e.refs = [] := by
  refine Expr.refs_of_dangling?_nil loaded.bound e ?_
  have stmts : (p.netlist m domain).stmts = p.comb m ++ p.sync m := by
    change p.comb m ++ (p.sync m ++ []) = _
    rw [List.append_nil]
  rw [stmts, exprsOf_eq, List.flatMap_append, ← exprsOf_eq, ← exprsOf_eq]
  exact List.mem_append.mpr he

theorem logic_eq : (p.netlist m domain).logic = p.comb m :=
  mapExprsOf_of_fixed _ fun e he => e.bindRefs_of_refs _ (refs_eq loaded (.inl he))

theorem sync_eq : first.sync = .ofList [(domain, p.sync m)] := by
  have same : mapExprsOf (Expr.resolved []) (p.sync m) = p.sync m :=
    mapExprsOf_of_fixed _ fun e he => e.bindRefs_of_refs _ (refs_eq loaded (.inr he))
  rw [loaded.sync]
  change OrdMap.ofList [(domain, mapExprsOf (Expr.resolved []) (p.sync m))] = _
  rw [same]

theorem sync_get : first.sync.get? domain = some (p.sync m) := by
  rw [sync_eq loaded]
  change (OrdMap.insert ∅ domain (p.sync m)).get? domain = _
  rw [OrdMap.get?_insert, if_pos rfl]

theorem knows_domain (σ : SimState) (cycles : OrdMap String Nat) :
    ({ first with state := σ, cycles } : Simulator).knows domain = true := by
  rw [knows, OrdMap.contains, sync_get loaded]
  rfl

theorem resetsUndriven : (p.netlist m domain).ResetsUndriven := fun t ht =>
  t.drivesRef_of_refs (refs_eq loaded (.inl (targetsOf_subset_exprsOf _ ht)))

theorem total : ∀ q ∈ first.processes, q.Total := loaded.total (resetsUndriven loaded)

theorem sound : ∀ q ∈ first.processes, q.Sound := loaded.sound

theorem mem_processes {q : Process} (hq : q ∈ Process.ofStmts (p.comb m)) :
    q ∈ first.processes := by
  rw [loaded.perm.mem_iff, logic_eq loaded]
  exact List.mem_append_left _ hq

theorem driven_processes {s : Signal} (h : Process.Driven first.processes s) :
    s ∈ assigned (p.comb m) := by
  obtain ⟨q, hq, hs⟩ := h
  rw [loaded.perm.mem_iff, logic_eq loaded, memories_eq loaded] at hq
  exact mem_outputs_ofStmts ((List.mem_append.mp hq).resolve_right nofun) hs

/-- What the clock drives stays as it is while the logic settles. -/
theorem registers_undriven {s : Signal} (h : s ∈ assigned (p.sync m)) :
    s ∉ assigned (p.comb m) :=
  loaded.wellDriven.syncComb (domain, p.sync m) (.head _) s h

/-- A settled state solves all logic. -/
theorem solved {σ : SimState} {cycles : OrdMap String Nat}
    (settled : settle.run.run { first with state := σ, cycles } =
      (.ok (), { first with state := σ, cycles })) :
    Solved [] first.processes σ := by
  have pass_eq : pass first.memories first.processes σ = (.ok (), σ) :=
    (@settled_of_no_domains { first with state := σ, cycles } loaded.domains).symm.trans
      ((run_settle_eq_iff _).mp settled)
  rw [memories_eq loaded] at pass_eq
  exact pass_solved (sound loaded) (loaded.apart (resetsUndriven loaded))
    (loaded.scheduled (resetsUndriven loaded)) pass_eq

end Netlist

end Parts

/-- The new signals show what the statements performed in a state decide: the next state, given the
number of the current one, and for every register whether it loads and what. -/
structure Decided (m : Machine) (p : Parts) (ρ : Valuation) (code : Nat) (done : List Stmt) :
    Prop where
  stay : lastMove done = none → ρ p.nextState = code
  moves : ∀ t, lastMove done = some t →
    ∃ code, m.code? (m.resolve t) = some code ∧ ρ p.nextState = code
  hold : ∀ l ∈ p.loads, lastLoad l.target done = none → ρ l.enable = 0
  loads : ∀ l ∈ p.loads, ∀ v, lastLoad l.target done = some v →
    ρ l.enable = 1 ∧ ∃ x, v.eval ρ = .ok x ∧ ρ l.next = l.next.shape.wrap x

namespace Parts.Built

variable {m : Machine} {supply : Supply} {p : Parts} (built : p.Built m supply)
  (older : ∀ s ∈ m.driven, s.id.index < supply.nextSignal)

include built in
/-- A load stands for a registered load in some state. -/
theorem exists_load {l : Load} (hl : l ∈ p.loads) :
    ∃ value, .nextValue l.target value ∈ leavesOf (m.bodies.flatMap (·.2)) := by
  have listed : l.target ∈ m.loads := built.targets ▸ List.mem_map_of_mem hl
  obtain ⟨leaf, hleaf, target⟩ := List.mem_filterMap.mp (List.mem_eraseDups.mp listed)
  split at target
  next t value =>
    cases target
    exact ⟨value, hleaf⟩
  · cases target

include built in
theorem target_listed {l : Load} (hl : l ∈ p.loads) :
    l.target ∈ targetsOf (m.bodies.flatMap (·.2)) := by
  obtain ⟨value, hleaf⟩ := built.exists_load hl
  exact (leafAmong_leavesOf _ _ hleaf).targets (.head _)

include built in
/-- A load in a state has two signals, which the state's statements assign. -/
theorem stage_of_leaf {s : String} {body ts : List Stmt} (hbody : (s, body) ∈ m.bodies)
    (plain : replaceOf (m.plain p.nextState p.loads) body = .ok ts) {t v : Expr}
    (leaf : .nextValue t v ∈ leavesOf body) :
    ∃ l ∈ p.loads, l.target = t ∧ (∃ one, .assign l.enable one ∈ leavesOf ts) ∧
      .assign l.next v ∈ leavesOf ts := by
  have mentioned : t ∈ m.loads := by
    refine List.mem_eraseDups.mpr (List.mem_filterMap.mpr ⟨.nextValue t v, ?_, rfl⟩)
    rw [leavesOf_eq] at leaf ⊢
    obtain ⟨u, hu, leaf⟩ := List.mem_flatMap.mp leaf
    exact List.mem_flatMap.mpr ⟨u, List.mem_flatMap.mpr ⟨(s, body), hbody, hu⟩, leaf⟩
  obtain ⟨l, hl, rfl⟩ := List.mem_map.mp (built.targets ▸ mentioned)
  obtain ⟨vs, rewritten, sub⟩ := mem_replaceOf (leavesOf_replaceOf body plain) leaf
  rw [replace_leaf rfl, Machine.plain, built.find?_target hl] at rewritten
  cases rewritten
  exact ⟨l, hl, rfl, ⟨_, sub (.tail _ (.head _))⟩, sub (.head _)⟩

include built in
/-- The signals of a load are driven in some state. -/
theorem load_targets {l : Load} (hl : l ∈ p.loads) :
    ∃ b ∈ p.bodies, .signal l.enable ∈ targetsOf b.2 ∧ .signal l.next ∈ targetsOf b.2 := by
  obtain ⟨value, hleaf⟩ := built.exists_load hl
  rw [leavesOf_eq] at hleaf
  obtain ⟨u, hu, hleaf⟩ := List.mem_flatMap.mp hleaf
  obtain ⟨⟨s, body⟩, hbody, hu⟩ := List.mem_flatMap.mp hu
  obtain ⟨k, place⟩ := List.mem_iff_getElem?.mp hbody
  obtain ⟨ts, place', plain⟩ := built.body_at place
  obtain ⟨l', hl', same, ⟨one, enable⟩, next⟩ := built.stage_of_leaf hbody plain
    (leavesOf_eq body ▸ List.mem_flatMap.mpr ⟨u, hu, hleaf⟩)
  obtain rfl := built.load_eq hl' hl same
  exact ⟨(s, ts), List.mem_of_getElem? place', (leafAmong_leavesOf ts _ enable).targets (.head _),
    (leafAmong_leavesOf ts _ next).targets (.head _)⟩

section
include built older

/-- New signals are none that the machine drives. -/
theorem not_driven {x : Signal} (hx : x ∈ p.signals) : x ∉ m.driven := fun driven =>
  absurd (older x driven) (Nat.not_lt.mpr (built.supply_le hx))

/-- What a state's statements perform stays away from the new signals but for moves and loads. -/
theorem effect_body {s : String} {body ts : List Stmt} (hbody : (s, body) ∈ m.bodies)
    (plain : replaceOf (m.plain p.nextState p.loads) body = .ok ts) {D : Signal → Prop}
    (unread : ∀ x ∈ sourcesOf (m.bodies.flatMap (·.2)), ¬ D x)
    (drives : ∀ x, DrivenBy (targetsOf ts) x → D x)
    (resolved : ∀ e ∈ exprsOf ts, e.refs = []) {ρ : Valuation} {f g : Frame}
    (agree : ∀ x, ¬ D x → f.seen x = ρ x) (run : (execAll ts).run.run f = (.ok (), g)) :
    ∃ done, performedOf ρ body = .ok done ∧
      Effect m p ρ (lastMove done) (fun t => lastLoad t done) f g := by
  have inside : ∀ u ∈ body, u ∈ m.bodies.flatMap (·.2) := fun u hu =>
    List.mem_flatMap.mpr ⟨(s, body), hbody, hu⟩
  have unread_body : ∀ x ∈ sourcesOf body, ¬ D x := fun x hx => unread x (by
    rw [sourcesOf_eq] at hx ⊢
    obtain ⟨u, hu, hx⟩ := List.mem_flatMap.mp hx
    exact List.mem_flatMap.mpr ⟨u, inside u hu, hx⟩)
  -- Performing the rewritten statements tells what the original ones perform.
  obtain ⟨us, reached⟩ := performedOf_ok ρ ts resolved
  obtain ⟨done, performs, rewrites⟩ := performedOf_replaceOf body plain reached
  -- Nothing that is read is driven, so what is performed in the fixed state is what runs.
  rw [execAll_performed ts ⟨drives, fun x hx => unread_body x (sourcesOf_replaceOf body plain hx)⟩
    agree reached] at run
  have among : ∀ u ∈ done, LeafAmong (targetsOf body) (sourcesOf body) u := fun u hu =>
    leafAmong_leavesOf body u (performedOf_subset body performs hu)
  have driven_us : ∀ x, DrivenBy (targetsOf us) x → D x := by
    rintro x ⟨t, ht, hx⟩
    rw [targetsOf_eq] at ht
    obtain ⟨u, hu, ht⟩ := List.mem_flatMap.mp ht
    exact drives x ⟨t, (leafAmong_leavesOf ts u (performedOf_subset ts reached hu)).targets ht, hx⟩
  refine ⟨done, performs, effect_leaves built rewrites (fun u hu => (among u hu).leaf) ?_
    (fun u hu x hx => unread_body x ((among u hu).sources hx)) driven_us agree run⟩
  rintro u hu x hx ⟨t, ht, drives⟩
  refine built.not_driven older hx (List.mem_append_left _ (List.mem_flatMap.mpr ⟨t, ?_, drives⟩))
  exact mem_targetsOf_of_subset inside ((among u hu).targets ht)

end

section Settled

variable {domain : String} {first : Simulator} (loaded : Loads (p.netlist m domain) first)
include built loaded

omit built in
/-- In a solved state, what the selection drives has the values that it leaves, and after it only
watchers are driven. -/
theorem run_front :
    ∃ more writes, (∀ u ∈ more, u ∈ p.before m) ∧ (∀ x ∈ writes, x ∈ assigned (p.comb m)) ∧
      (∀ x ∈ assigned (p.selection m), x ∈ writes) ∧
      ∀ σ, Solved [] first.processes σ → ∃ g,
        (execAll (p.selection m ++ more)).run.run (fresh σ writes) = (.ok (), g) ∧
        ∀ x ∈ writes, σ.value x = g.latest x := by
  obtain ⟨choice, selection, common⟩ := p.exists_choice m
  have comb : p.comb m = .assign p.nextState p.state :: choice :: p.before m := by
    rw [Parts.comb, selection]
    rfl
  -- The assignment and the selection share the next state, so they start a process.
  obtain ⟨more, sub, front⟩ := Process.exists_front_process (p.before m)
    (drivenBy_iff.mp ⟨.signal p.nextState, .head _, .head _⟩ :
      p.nextState ∈ assigned [.assign p.nextState p.state]) common
  rw [← comb] at front
  have listed := Parts.mem_processes loaded front
  refine ⟨more, assigned (.assign p.nextState p.state :: choice :: more), sub, fun x hx => ?_,
    fun x hx => ?_, fun σ solved => ?_⟩
  · obtain ⟨u, hu, hx⟩ := mem_assigned.mp hx
    refine mem_assigned.mpr ⟨u, ?_, hx⟩
    rw [comb]
    rcases List.mem_cons.mp hu with rfl | hu
    · exact .head _
    · rcases List.mem_cons.mp hu with rfl | hu
      · exact .tail _ (.head _)
      · exact .tail _ (.tail _ (sub u hu))
  · obtain ⟨u, hu, hx⟩ := mem_assigned.mp hx
    refine mem_assigned.mpr ⟨u, ?_, hx⟩
    rw [selection] at hu
    exact List.mem_append_left more hu
  · rw [selection]
    exact solved.run_logic listed (Parts.sound loaded _ listed)

/-- In a solved state the statements of the state that the register shows have run, from reset
values and with the next state set to the same state. What the selection drives has the values that
they leave, watchers apart. -/
theorem run_shown (distinct : m.states.Nodup) {σ : SimState}
    (solved : Solved [] first.processes σ) {k : Nat} {s : String} {ts : List Stmt}
    (place : p.bodies[k]? = some (s, ts)) (shows : σ.value p.state = k) :
    ∃ writes f g, (∀ x ∈ writes, x ∈ assigned (p.comb m)) ∧
      (∀ x ∈ assigned (p.selection m), x ∈ writes) ∧
      Stores (· = p.nextState) (fresh σ writes) f ∧ f.latest p.nextState = k ∧
      (execAll ts).run.run f = (.ok (), g) ∧
      ∀ x ∈ writes, x ∉ m.watchers → σ.value x = g.latest x := by
  obtain ⟨more, writes, in_before, sub, covers, leaves⟩ := run_front loaded
  obtain ⟨h, run, values⟩ := leaves σ solved
  obtain ⟨g, run₁, run₂⟩ := run_execAll_append_ok.mp run
  have unwritten : p.state ∉ writes := fun hx =>
    Parts.registers_undriven loaded Parts.state_mem_assigned_sync (sub _ hx)
  have seen : (fresh σ writes).seen p.state = k := (latest_fresh_of_not_mem unwritten).trans shows
  obtain ⟨f, stores, value, same⟩ := built.run_selection distinct place seen
  refine ⟨writes, f, g, sub, covers, stores, value, same ▸ run₁, fun x hx unwatched => ?_⟩
  -- What follows the selection drives watchers only.
  have late := execAll_stores more g
  rw [run₂] at late
  rw [values x hx]
  refine late.latest_eq fun driven => unwatched ?_
  exact Parts.drivenBy_before (driven.mono (fun t => mem_targetsOf_of_subset in_before) x)

include older

/-- In a settled state the new signals show what the current state's statements decide. -/
theorem decided (distinct : m.states.Nodup)
    (unread : ∀ x ∈ sourcesOf (m.bodies.flatMap (·.2)), x ∉ assigned (p.comb m)) {σ : SimState}
    (solved : Solved [] first.processes σ) {k : Nat} {s : String} {body : List Stmt}
    (place : m.bodies[k]? = some (s, body)) (shows : σ.value p.state = k) :
    ∃ done, performedOf σ.value body = .ok done ∧ Decided m p σ.value k done := by
  obtain ⟨ts, place', plain⟩ := built.body_at place
  have here := List.mem_of_getElem? place'
  obtain ⟨writes, f, g, sub, covers, stores, value, run, values⟩ :=
    built.run_shown loaded distinct solved place' shows
  have drives : ∀ b ∈ p.bodies, ∀ x, DrivenBy (targetsOf b.2) x → x ∈ writes := fun b hb x hx =>
    covers x (drivenBy_iff.mp (hx.mono (Parts.selection_covers hb).1 x))
  have next_mem : p.nextState ∈ writes :=
    covers _ (drivenBy_iff.mp ⟨.signal p.nextState, .head _, .head _⟩)
  have load_mem : ∀ l ∈ p.loads, l.enable ∈ writes ∧ l.next ∈ writes := by
    intro l hl
    obtain ⟨b, hb, enable, next⟩ := built.load_targets hl
    exact ⟨drives b hb _ ⟨_, enable, .head _⟩, drives b hb _ ⟨_, next, .head _⟩⟩
  -- New signals are no watchers, so they have the values that the statements leave.
  have left : ∀ x ∈ p.signals, x ∈ writes → σ.value x = g.latest x := fun x new hx =>
    values x hx fun watcher => built.not_driven older new (List.mem_append_right _ watcher)
  have next_value := left _ (.tail _ (.head _)) next_mem
  have load_value : ∀ l ∈ p.loads,
      σ.value l.enable = g.latest l.enable ∧ σ.value l.next = g.latest l.next := fun l hl =>
    ⟨left _ (Parts.mem_signals_of_load hl).1 (load_mem l hl).1,
      left _ (Parts.mem_signals_of_load hl).2 (load_mem l hl).2⟩
  obtain ⟨done, performs, effect⟩ := built.effect_body older (List.mem_of_getElem? place) plain
    unread (fun x hx => sub x (drives _ here x hx))
    (fun e he => Parts.refs_eq loaded (.inl (by
      rw [Parts.comb, exprsOf_eq, List.flatMap_append, ← exprsOf_eq]
      exact List.mem_append_left _ ((Parts.selection_covers here).2 he))))
    (fun x hx => (stores.seen_eq fun (same : x = p.nextState) =>
      hx (sub x (same ▸ next_mem))).trans (latest_fresh_of_not_mem fun hw => hx (sub x hw))) run
  refine ⟨done, performs, fun none => ?_, fun t some => ?_, fun l hl none => ?_,
    fun l hl v some => ?_⟩
  · rw [next_value, effect.stay none, value]
  · obtain ⟨code, known, moved⟩ := effect.moves t some
    exact ⟨code, known, by rw [next_value, moved, wrap_code (code?_lt known)]⟩
  -- Without a load the enable is still at its reset value, which is zero.
  · have ne : l.enable ≠ p.nextState := fun same => built.nextState_ne l hl (same ▸ l.enable_mem)
    rw [(load_value l hl).1, (effect.hold l hl none).1, stores.latest_eq ne,
      latest_fresh_of_mem (load_mem l hl).1, Signal.resetValue, (built.enables l hl).1,
      (built.enables l hl).2]
    rfl
  · obtain ⟨enable, x, evaluated, next⟩ := effect.loads l hl v some
    exact ⟨by rw [(load_value l hl).1, enable], x, evaluated, by rw [(load_value l hl).2, next]⟩

end Settled

section Edge

variable (whole : ∀ t ∈ m.loads, ∃ r, t = .signal r ∧ r ∉ m.watchers)

include built older

/-- A register is no new signal. -/
theorem register_old {l : Load} (hl : l ∈ p.loads) {r : Signal} (driven : r ∈ l.target.drives) :
    r ∉ p.signals := by
  intro new
  exact built.not_driven older new (List.mem_append_left _ (List.mem_flatMap.mpr
    ⟨_, built.target_listed hl, driven⟩))

/-- The state register is loaded from the next state. -/
theorem run_sync_state {σ : SimState} {g : Frame}
    (run : (execAll (p.sync m)).run.run { state := σ, clocked := true } = (.ok (), g)) :
    g.writes.get? p.state = some (p.state.shape.wrap (σ.value p.nextState)) := by
  have state_new : p.state ∈ p.signals := .head _
  have after : ¬ DrivenBy (targetsOf (p.loads.map register ++
      (p.start.toList.map (fun s => .assign s (.int 0)) ++ p.after m))) p.state := by
    rw [drivenBy_append]
    rintro (loads | rest)
    · obtain ⟨l, hl, driven⟩ := drivenBy_registers loads
      exact built.register_old older hl driven state_new
    · rcases drivenBy_rest rest with start | watcher
      · exact (List.nodup_cons.mp built.nodup).1 (.tail _ (List.mem_append_right _ start))
      · exact built.not_driven older state_new (List.mem_append_right _ watcher)
  obtain ⟨f, h, clocked, state, -, here, same⟩ :=
    run_only [] _ (fun ⟨_, absent, _⟩ => nomatch absent) after run
  obtain ⟨v, value, rfl⟩ := run_assign_signal_ok.mp here
  have next : v = σ.value p.nextState := by
    rw [seen_clocked clocked, state] at value
    exact (Except.ok.inj value).symm
  rw [same, stored_writes, if_pos rfl, next]

include whole

omit older in
/-- Only one load is for a register. -/
theorem register_alone {l : Load} {r : Signal} (target : l.target = .signal r)
    {before behind : List Load} (loads : p.loads = before ++ l :: behind) {k : Load}
    (hk : k ∈ before ++ behind) : r ∉ k.target.drives := by
  intro driven
  have nodup : (before ++ l :: behind).Nodup :=
    loads ▸ List.Nodup.of_map (·.target) (built.targets ▸ nodup_eraseDups _)
  have mem : k ∈ p.loads := by
    rw [loads]
    exact List.perm_middle.mem_iff.mpr (.tail _ hk)
  obtain ⟨y, single, -⟩ := whole k.target (built.targets ▸ List.mem_map_of_mem mem)
  rw [single, Expr.drives, List.mem_singleton] at driven
  have same : k = l := built.load_eq mem (by rw [loads]; simp) (by rw [single, target, driven])
  exact (List.nodup_cons.mp (List.perm_middle.nodup_iff.mp nodup)).1 (same ▸ hk)

/-- A register loads if its enable is set. -/
theorem run_sync_load {σ : SimState} {g : Frame}
    (run : (execAll (p.sync m)).run.run { state := σ, clocked := true } = (.ok (), g))
    {l : Load} (hl : l ∈ p.loads) {r : Signal} (target : l.target = .signal r) :
    g.writes.get? r =
      if σ.value l.enable = 0 then none else some (r.shape.wrap (σ.value l.next)) := by
  have old : r ∉ p.signals := built.register_old older hl (by rw [target]; exact .head _)
  have unwatched : r ∉ m.watchers := by
    obtain ⟨r', same, unwatched⟩ := whole l.target (built.targets ▸ List.mem_map_of_mem hl)
    exact Expr.signal.inj (same.symm.trans target) ▸ unwatched
  obtain ⟨before, behind, loads⟩ := List.append_of_mem hl
  have sync : p.sync m = (.assign p.state p.nextState :: before.map register) ++ register l ::
      (behind.map register ++
        (p.start.toList.map (fun s => .assign s (.int 0)) ++ p.after m)) := by
    rw [Parts.sync, loads, List.map_append, List.map_cons]
    simp only [List.cons_append, List.append_assoc]
  have first : ¬ DrivenBy (targetsOf (.assign p.state p.nextState :: before.map register)) r := by
    rintro ⟨t, ht, hx⟩
    rcases List.mem_cons.mp ht with rfl | ht
    · exact old (List.mem_singleton.mp hx ▸ .head _)
    · obtain ⟨k, hk, driven⟩ := drivenBy_registers ⟨t, ht, hx⟩
      exact built.register_alone whole target loads (List.mem_append_left _ hk) driven
  have last : ¬ DrivenBy (targetsOf (behind.map register ++
      (p.start.toList.map (fun s => .assign s (.int 0)) ++ p.after m))) r := by
    rw [drivenBy_append]
    rintro (others | rest)
    · obtain ⟨k, hk, driven⟩ := drivenBy_registers others
      exact built.register_alone whole target loads (List.mem_append_right _ hk) driven
    · rcases drivenBy_rest rest with start | watcher
      · exact old (.tail _ (.tail _ (List.mem_append_right _ start)))
      · exact unwatched watcher
  rw [sync] at run
  obtain ⟨f, h, clocked, state, unwritten, here, same⟩ := run_only _ _ first last run
  have seen : f.seen = σ.value := by rw [seen_clocked clocked, state]
  have enable : (Expr.signal l.enable).eval f.seen = .ok (σ.value l.enable) := by rw [seen]; rfl
  rw [register, run_exec_branch] at here
  simp only [enable] at here
  rw [same]
  by_cases zero : σ.value l.enable = 0
  · rw [if_pos zero] at here ⊢
    cases here
    rw [unwritten]
    rfl
  · rw [if_neg zero, target, run_execAll_singleton] at here
    obtain ⟨v, value, rfl⟩ := run_assign_signal_ok.mp here
    rw [seen] at value
    rw [if_neg zero, stored_writes, if_pos rfl, ← Except.ok.inj value]

end Edge

section Tick

variable {domain : String} {first : Simulator} (loaded : Loads (p.netlist m domain) first)
include loaded

omit built older in
theorem run_sync_ok (σ : SimState) :
    ∃ g, (execAll (p.sync m)).run.run { state := σ, clocked := true } = (.ok (), g) := by
  have plain : sugarOf? (p.sync m) = none := by
    refine sugarOf?_eq_none_iff.mpr fun u hu => sugarOf?_eq_none_iff.mp loaded.plain u ?_
    refine List.mem_append_right _ ?_
    change u ∈ p.sync m ++ []
    rwa [List.append_nil]
  have ended := execAll_ok (p.sync m) { state := σ, clocked := true } plain
    ⟨loaded.wellDriven.syncTargets (domain, p.sync m) (.head _),
      fun e he => Parts.refs_eq loaded (.inr he)⟩
  exact ⟨_, Prod.ext ended rfl⟩

omit built older in
/-- A clock edge in a settled state loads the registers, and the logic follows. The design stays. -/
theorem run_tick_same {σ : SimState} {cycles : OrdMap String Nat}
    (settled : settle.run.run { first with state := σ, cycles } =
      (.ok (), { first with state := σ, cycles })) {g : Frame}
    (run : (execAll (p.sync m)).run.run { state := σ, clocked := true } = (.ok (), g)) :
    ∃ τ, (tick domain).run.run { first with state := σ, cycles } =
        (.ok (), { first with
          state := τ
          cycles := cycles.insert domain (cycles.getD domain 0 + 1) }) ∧
      ∀ x ∈ assigned (p.sync m), τ.get? x = (g.writes.get? x).or (σ.get? x) := by
  have loads : ({ first with state := σ, cycles } : Simulator).loaded domain = .ok g.writes := by
    have unreset : ({ first with state := σ, cycles } : Simulator).inReset domain = false := by
      rw [inReset, loaded.domains]
      rfl
    simp only [Simulator.loaded, OrdMap.getD, Parts.sync_get loaded, Option.getD_some, run, unreset]
    rfl
  have edge : ({ first with state := σ, cycles } : Simulator).clockEdge domain =
      .ok { first with
        state := σ.override g.writes
        memories := []
        cycles := cycles.insert domain (cycles.getD domain 0 + 1) } := by
    rw [clockEdge, loads, Parts.memories_eq loaded]
    rfl
  have ended := pass_ok (Parts.total loaded) [] (σ.override g.writes)
  refine ⟨(pass [] first.processes (σ.override g.writes)).2, ?_, fun x hx => ?_⟩
  · rw [run_tick, if_pos (Parts.knows_domain loaded σ cycles), settled]
    simp only [edge, ← Parts.memories_eq loaded] at ended ⊢
    refine (run_settle_of_no_domains ?_).trans (Prod.ext ended rfl)
    exact loaded.domains
  · have undriven : ¬ Process.Driven first.processes x := fun driven =>
      Parts.registers_undriven loaded hx (Parts.driven_processes loaded driven)
    rw [pass_undriven (Parts.sound loaded) undriven, OrdMap.get?_override]

omit built older in
theorem run_tick_settled {σ : SimState} {cycles : OrdMap String Nat}
    (settled : settle.run.run { first with state := σ, cycles } =
      (.ok (), { first with state := σ, cycles })) {g : Frame}
    (run : (execAll (p.sync m)).run.run { state := σ, clocked := true } = (.ok (), g)) :
    ∃ after, (tick domain).run.run { first with state := σ, cycles } = (.ok (), after) ∧
      ∀ x ∈ assigned (p.sync m), after.state.get? x = (g.writes.get? x).or (σ.get? x) := by
  obtain ⟨τ, ticked, registers⟩ := run_tick_same loaded settled run
  exact ⟨_, ticked, registers⟩

end Tick

end Parts.Built

/-- The state register shows a state's number. -/
def Shows (m : Machine) (c : Compiled) (ρ : Valuation) (s : String) : Prop :=
  ∃ code : Nat, m.code? s = some code ∧ ρ c.state = code

/-- One clock edge in a settled simulation of a machine moves the state register to the state of
the last move that the current state's statements perform, if any, and gives every register the
value of the last load performed for it, if any. Values are those before the edge. -/
theorem tick_performs_state (m : Machine) (domain : String) (supply rest : Supply) (c : Compiled)
    (compiled : (m.compile domain).run.run supply = (.ok c, rest)) (distinct : m.states.Nodup)
    (older : ∀ s ∈ m.driven, s.id.index < supply.nextSignal)
    (unread : ∀ x ∈ sourcesOf (m.bodies.flatMap (·.2)), x ∉ assigned c.netlist.comb)
    (whole : ∀ t ∈ m.loads, ∃ r, t = .signal r ∧ r ∉ m.watchers) (first sim : Simulator)
    (started : Starts c.netlist first)
    (design : sim = { first with state := sim.state, cycles := sim.cycles })
    (settled : settle.run.run sim = (.ok (), sim)) (s : String) (body : List Stmt)
    (declared : (s, body) ∈ m.bodies) (shows : m.Shows c sim.peek s) :
    ∃ done after, performedOf sim.peek body = .ok done ∧
      (tick (m.domain.getD domain)).run.run sim = (.ok (), after) ∧
      m.Shows c after.peek ((lastMove done).elim s m.resolve) ∧
      ∀ r, .signal r ∈ m.loads →
        match lastLoad (.signal r) done with
        | none => after.peek r = sim.peek r
        | some v => ∃ x, v.eval sim.peek = .ok x ∧ after.peek r = r.shape.wrap x := by
  obtain ⟨p, built, state, -, netlist⟩ := compile_ok compiled
  rw [netlist] at unread started
  obtain ⟨fresh, loaded, -, rfl⟩ := started
  obtain ⟨k, place⟩ := List.mem_iff_getElem?.mp declared
  obtain ⟨code, known, value⟩ := shows
  have number : m.code? s = some k := code?_of_place distinct (by
    rw [states, List.getElem?_map, place]
    rfl)
  cases known.symm.trans number
  rw [design] at settled
  obtain ⟨done, performs, decided⟩ := built.decided older loaded distinct unread
    (Parts.solved loaded settled) place (state ▸ value)
  obtain ⟨g, run⟩ := Parts.Built.run_sync_ok loaded sim.state
  obtain ⟨after, ticked, registers⟩ := Parts.Built.run_tick_settled loaded settled run
  refine ⟨done, after, performs, design ▸ ticked, ?_, fun r hr => ?_⟩
  · have moved : after.peek c.state = m.shape.wrap (sim.peek p.nextState) := by
      rw [state, ← built.stateShape]
      refine SimState.value_of_get? ?_
      rw [registers _ Parts.state_mem_assigned_sync, built.run_sync_state older run]
      rfl
    cases move : lastMove done with
    | none => exact ⟨k, number, by
        rw [moved, peek, decided.stay move, wrap_code (code?_lt number)]⟩
    | some t =>
      obtain ⟨code, known, next⟩ := decided.moves t move
      exact ⟨code, known, by rw [moved, peek, next, wrap_code (code?_lt known)]⟩
  · obtain ⟨l, hl, target⟩ := List.mem_map.mp (built.targets ▸ hr)
    have stored := registers r (Parts.target_mem_assigned_sync hl (target ▸ .head _))
    rw [built.run_sync_load older whole run hl target] at stored
    cases load : lastLoad (.signal r) done with
    | none =>
      rw [if_pos (decided.hold l hl (target ▸ load))] at stored
      exact value_congr stored
    | some v =>
      obtain ⟨enable, x, evaluated, next⟩ := decided.loads l hl v (target ▸ load)
      rw [if_neg (by rw [enable]; decide), next, built.nexts l hl, target] at stored
      refine ⟨x, evaluated, SimState.value_of_get? (stored.trans ?_)⟩
      exact congrArg some (Shape.wrap_wrap r.shape x)

namespace Sample

/-- An input that asks for a pulse. -/
def request : Signal := ⟨⟨1⟩, "request", .unsigned 1, 1, false⟩

/-- A register that counts by five. -/
def level : Signal := ⟨⟨2⟩, "level", .unsigned 3, 6, false⟩

/-- Off until a pulse is asked for, then on for one cycle. -/
def pulse : Machine where
  name := "pulse"
  bodies := [
    ("off", [.branch request [.nextState "on", .nextValue level (.binary .add level (.int 5))] []]),
    ("on", [.nextState "rest", .assign (.signal ⟨⟨3⟩, "lamp", .unsigned 1, 0, false⟩) (.int 1)])]
  aliases := .ofList [("rest", "off")]

end Sample

open Sample

/-- Whether a machine's simulation starts and a check holds of it. -/
def trial (m : Machine) (supply : Supply) (check : Compiled → Simulator → Bool) : Bool :=
  match (m.compile "sys").run.run supply with
  | (.ok c, _) => (start c.netlist).toOption.any (check c)
  | (.error _, _) => false

theorem of_trial {m : Machine} {supply : Supply} {check : Compiled → Simulator → Bool}
    (h : m.trial supply check = true) :
    ∃ c rest first, (m.compile "sys").run.run supply = (.ok c, rest) ∧
      start c.netlist = .ok first ∧ check c first = true := by
  rw [trial] at h
  split at h
  next c rest compiled =>
    cases started : start c.netlist with
    | error e =>
      rw [started] at h
      cases h
    | ok first => exact ⟨c, rest, first, compiled, started, by rwa [started] at h⟩
  · cases h

theorem pulse_trial : pulse.trial ⟨10, 0⟩ (fun c sim => decide
    ((∀ x ∈ sourcesOf (pulse.bodies.flatMap Prod.snd), x ∉ assigned c.netlist.comb) ∧
      sim.settled.1 = .ok () ∧ sim.settled.2 = sim.state ∧ sim.peek c.state = 0 ∧
      sim.peek request = 1 ∧ sim.peek level = 6)) = true := by
  decide +kernel

theorem pulse_turns_on :
    ∃ c rest first after, (pulse.compile "sys").run.run ⟨10, 0⟩ = (.ok c, rest) ∧
      start c.netlist = .ok first ∧ pulse.Shows c first.peek "off" ∧
      (tick "sys").run.run first = (.ok (), after) ∧ pulse.Shows c after.peek "on" ∧
      after.peek level = 3 := by
  obtain ⟨c, rest, first, compiled, started, checked⟩ := of_trial pulse_trial
  obtain ⟨unread, ended, same, state, asked, count⟩ := of_decide_eq_true checked
  have settled : settle.run.run first = (.ok (), first) :=
    (run_settle_eq_iff first).mpr (Prod.ext ended same)
  have off : pulse.Shows c first.peek "off" := ⟨0, by decide +kernel, state⟩
  have loads : pulse.loads = [.signal level] := by decide +kernel
  have unwatched : level ∉ pulse.watchers := by decide +kernel
  obtain ⟨done, after, performs, ticked, shows, loaded⟩ := tick_performs_state pulse "sys" ⟨10, 0⟩
    rest c compiled (by decide +kernel) (by decide +kernel) unread
    (fun t ht => ⟨level, List.mem_singleton.mp (loads ▸ ht), unwatched⟩) first first
    (starts_of_start started) rfl
    settled "off" _ (.head _) off
  have reached : performedOf first.peek [.branch request
      [.nextState "on", .nextValue level (.binary .add level (.int 5))] []] =
        .ok [.nextState "on", .nextValue level (.binary .add level (.int 5))] :=
    performedOf_singleton.mpr (performed_branch.mpr ⟨1, congrArg Except.ok asked, rfl⟩)
  cases performs.symm.trans reached
  refine ⟨c, rest, first, after, compiled, started, off, ticked, shows, ?_⟩
  obtain ⟨x, value, same⟩ := loaded level (by rw [loads]; exact .head _)
  have sum : (Expr.binary .add level (.int 5)).eval first.peek =
      .ok ((Expr.binary .add level (.int 5)).shape.wrap (first.peek level + 5)) := rfl
  have total := Except.ok.inj (sum.symm.trans value)
  rw [count] at total
  rw [same, ← total]
  decide +kernel

end Machine

end Gateware
