import Gateware.Proofs.Placement

/-!
# Wires

A signal that a single combinational assignment drives, from sources that no process drives, follows
them whenever the logic settles.

## Main results

* `Process.lone_process`: a statement that shares no signal with the others is a process of its own
* `Simulator.Wired.settled`: after settling, a wire shows the value of its expression
* `Simulator.Moves.follows`: a wire goes on showing the signal at its other end
* `Simulator.foldl_holdReset_on`, `Simulator.foldl_holdReset_off`: what a round of resets does to a
  register whose reset no round changes
-/
namespace Gateware

namespace Process

/-- A statement that shares no signal with the others is a process of its own. -/
theorem lone_process {front back : List Stmt} {s : Stmt}
    (apart : ∀ x ∈ Stmt.assigned [s], x ∉ Stmt.assigned front ∧ x ∉ Stmt.assigned back) :
    .logic [s] (Stmt.assigned [s]) ∈ ofStmts (front ++ s :: back) ∧
      ∀ p ∈ ofStmts (front ++ s :: back), ∀ x ∈ Stmt.assigned [s], x ∈ p.outputs →
        p = .logic [s] (Stmt.assigned [s]) := by
  let ss := front ++ s :: back
  let i := front.length
  have here : ss[i]? = some s := by simp [ss, i]
  -- Only the statement itself has one of its signals.
  have only : ∀ {j : Nat} {t : Stmt} {x : Signal}, ss[j]? = some t → x ∈ Stmt.assigned [s] →
      x ∈ Stmt.assigned [t] → j = i := by
    intro j t x found own other
    obtain ⟨before, after⟩ := apart x own
    by_contra differ
    rcases Nat.lt_or_gt_of_ne differ with less | more
    · rw [List.getElem?_append_left less] at found
      exact before (Stmt.mem_assigned.mpr ⟨t, List.mem_of_getElem? found, other⟩)
    · rw [List.getElem?_append_right (Nat.le_of_lt more)] at found
      obtain ⟨k, past⟩ := Nat.exists_eq_add_of_lt more
      have later : back[k]? = some t := by
        have shifted : j - front.length = k + 1 := by omega
        rwa [shifted, List.getElem?_cons_succ] at found
      exact after (Stmt.mem_assigned.mpr ⟨t, List.mem_of_getElem? later, other⟩)
  have alone : ∀ {g : Group}, g ∈ groups ss → i ∈ g.places → g.places = [i] := by
    intro g hg hi
    refine eq_of_increasing g.sorted (List.pairwise_singleton ..) fun j => ?_
    rw [List.mem_singleton]
    refine ⟨fun hj => ?_, fun same => same ▸ hi⟩
    have linked := (grouped ss).linked g hg i hi j hj
    clear hj
    induction linked with
    | refl => rfl
    | tail _ step ih =>
      obtain ⟨t, ht, u, hu, x, own, other⟩ := step
      rw [ih, here] at ht
      cases ht
      exact only hu own other
  have process : atPlaces ss [i] = .logic [s] (Stmt.assigned [s]) := by
    simp [atPlaces, here]
  rw [show front ++ s :: back = ss from rfl, ofStmts_eq]
  constructor
  · obtain ⟨g, hg, hi⟩ := exists_group (List.getElem?_eq_some_iff.mp here).1
    rw [← process, ← alone hg hi]
    exact List.mem_map_of_mem (List.mem_map_of_mem hg)
  · intro p hp x own drives
    obtain ⟨places, listed, rfl⟩ := List.mem_map.mp hp
    obtain ⟨g, hg, rfl⟩ := List.mem_map.mp listed
    obtain ⟨t, ht, other⟩ := Stmt.mem_assigned.mp drives
    obtain ⟨j, hj, found⟩ := List.mem_filterMap.mp ht
    rw [alone hg (only found own other ▸ hj), process]

end Process

namespace Simulator

open Process

/-! ### What a wire shows -/

theorem assigned_wire (x : Signal) (e : Expr) {y : Signal} :
    y ∈ Stmt.assigned [.assign x e] ↔ y = x := by
  simp [Stmt.assigned, Stmt.targetsOf, Stmt.targets, Expr.drives]

/-- The process of an assignment on its own. -/
def wireOf (x : Signal) (e : Expr) : Process := .logic [.assign x e] (Stmt.assigned [.assign x e])

/-- One assignment drives the signal, from sources that no process drives. -/
structure Wired (ps : List Process) (x : Signal) (e : Expr) : Prop where
  owns : ∀ p ∈ ps, p.Owns
  member : wireOf x e ∈ ps
  alone : ∀ p ∈ ps, x ∈ p.outputs → p = wireOf x e
  sources : ∀ s ∈ e.mentions, ¬ Driven ps s

namespace Wired

variable {ps : List Process} {x : Signal} {e : Expr} (h : Wired ps x e)

include h

theorem driven : Driven ps x := ⟨_, h.member, (assigned_wire x e).mpr rfl⟩

theorem not_mem_mentions : x ∉ e.mentions := fun source => h.sources x source h.driven

/-- The process of a wire shows the value of the expression. -/
theorem results {ms : List MemoryState} {σ w : SimState} {v : Int}
    (value : e.eval σ.value = .ok v) (done : Simulator.results ms σ (wireOf x e) = .ok w) :
    w.get? x = some (x.shape.wrap v) := by
  have sees : e.eval (fresh σ (Stmt.assigned [.assign x e])).seen = .ok v := by
    rw [← value]
    refine Expr.eval_congr e fun s hs => ?_
    rw [Frame.seen_blocking rfl, latest_fresh_of_not_mem]
    rw [assigned_wire]
    rintro rfl
    exact h.not_mem_mentions hs
  rw [wireOf, results_logic, Frame.run_execAll_cons, Frame.run_exec_assign, sees] at done
  simp only [Frame.run_write_signal, Frame.run_execAll_nil] at done
  cases done
  rw [Frame.stored_writes, if_pos rfl]

/-- A pass brings the value of the expression to the wire. -/
theorem pass {ms : List MemoryState} {σ τ : SimState} {v : Int} (value : e.eval σ.value = .ok v)
    (run : Simulator.pass ms ps σ = (.ok (), τ)) : τ.get? x = some (x.shape.wrap v) := by
  -- Once the process of the wire has run, no later one changes the wire.
  have along : ∀ (qs : List Process) (σ : SimState), (∀ q ∈ qs, q ∈ ps) →
      e.eval σ.value = .ok v → wireOf x e ∈ qs ∨ σ.get? x = some (x.shape.wrap v) →
      Simulator.pass ms qs σ = (.ok (), τ) → τ.get? x = some (x.shape.wrap v) := by
    intro qs
    induction qs with
    | nil =>
      intro σ _ _ shown run
      cases run
      exact shown.resolve_left List.not_mem_nil
    | cons q qs ih =>
      intro σ inside value shown run
      have own := h.owns q (inside q (by simp))
      rw [Simulator.pass] at run
      cases done : Simulator.results ms σ q with
      | error fault =>
        rw [done] at run
        cases run
      | ok w =>
        simp only [done] at run
        have kept : e.eval (SimState.value (σ.override w)) = .ok v := by
          rw [← value]
          refine Expr.eval_congr e fun s hs => value_congr ?_
          refine override_undriven own done fun drives => ?_
          exact h.sources s hs ⟨q, inside q (by simp), drives⟩
        refine ih _ (fun p hp => inside p (List.mem_cons_of_mem _ hp)) kept ?_ run
        by_cases drives : x ∈ q.outputs
        · right
          rw [override_driven own done drives]
          have same := h.alone q (inside q (by simp)) drives
          subst same
          exact h.results value done
        · rw [override_undriven own done drives]
          refine shown.imp_left fun member => (List.mem_cons.mp member).resolve_left ?_
          rintro rfl
          exact drives ((assigned_wire x e).mpr rfl)
  exact along ps σ (fun _ hq => hq) value (.inl h.member) run

end Wired

/-- After settling, a wire shows the value of its expression. -/
theorem Wired.settled {sim : Simulator} {x : Signal} {e : Expr} (h : Wired sim.processes x e)
    {τ : SimState} (ended : sim.settled = (.ok (), τ)) {v : Int} (value : e.eval τ.value = .ok v) :
    τ.get? x = some (x.shape.wrap v) := by
  have before : ∀ {σ : SimState}, Simulator.pass sim.memories sim.processes σ = (.ok (), τ) →
      e.eval σ.value = .ok v := by
    intro σ run
    rw [← value]
    refine Expr.eval_congr e fun s hs => value_congr ?_
    have kept := pass_keeps h.owns (h.sources s hs) sim.memories σ
    rw [run] at kept
    exact kept.symm
  obtain ⟨σ, first, ⟨-, rfl⟩ | second⟩ := settled_cases ended
  · exact h.pass (before first) first
  · exact h.pass (before second) second

theorem Wired.settle {sim after : Simulator} {x : Signal} {e : Expr} (h : Wired sim.processes x e)
    (settles : Simulator.settle.run.run sim = (.ok (), after)) {v : Int}
    (value : e.eval after.peek = .ok v) : after.peek x = x.shape.wrap v := by
  obtain ⟨ended, -⟩ := run_settle_ok settles
  exact SimState.value_of_get? (h.settled ended value)

/-- The wire of a signal goes on showing it. -/
theorem Moves.follows {own : OrdSet Signal} {ticked : Option String} {sim after : Simulator}
    (move : Moves own ticked sim after) {x y : Signal} (h : Wired sim.processes x y) (hx : x ∈ own)
    (hy : y ∈ own) (shown : sim.peek x = x.shape.wrap (sim.peek y)) :
    after.peek x = x.shape.wrap (after.peek y) := by
  cases move with
  | poke s v outside => rw [peek_poke_of_mem outside hx, peek_poke_of_mem outside hy, shown]
  | settle settles => exact h.settle settles rfl
  | tick domain ticks =>
    obtain ⟨mid, next, settles, edge, last⟩ := tick_ok ticks
    have same : next.processes = sim.processes := by
      rw [(sameDesign_clockEdge edge).processes, (run_settle_ok settles).2]
    exact (same ▸ h).settle last rfl

/-- A single assignment in the logic of a loaded netlist is a wire. -/
theorem Loads.wired {n : Netlist} {first : Simulator} (h : Loads n first) {front back : List Stmt}
    {x : Signal} {e : Expr} (logic : n.logic = front ++ .assign x e :: back)
    (before : x ∉ Stmt.assigned front) (after : x ∉ Stmt.assigned back)
    (only : ∀ p : Netlist.Part, x ∈ p.drives (n.mapExprs (Expr.resolved n.domains)) → p = .comb)
    (sources : ∀ s ∈ e.mentions, ¬ Driven first.processes s) : Wired first.processes x e := by
  have apart : ∀ y ∈ Stmt.assigned [.assign x e],
      y ∉ Stmt.assigned front ∧ y ∉ Stmt.assigned back := by
    intro y own
    rw [assigned_wire] at own
    exact own ▸ ⟨before, after⟩
  obtain ⟨member, alone⟩ := lone_process apart
  rw [← logic] at member alone
  refine ⟨h.owns, h.perm.mem_iff.mpr (List.mem_append_left _ member), fun p hp drives => ?_,
    sources⟩
  rcases List.mem_append.mp (h.perm.mem_iff.mp hp) with listed | memory
  · exact alone p listed x ((assigned_wire x e).mpr rfl) drives
  · obtain ⟨m, hm, port, hport, outs, -⟩ := mem_ofMemories memory
    rw [outs, OrdSet.mem_singleton] at drives
    obtain ⟨id, shows⟩ := h.exists_drives_data (List.mem_map_of_mem hm) hport
    cases only _ (drives ▸ shows)

/-! ### Rounds of resets -/

section Resets

variable {sync : OrdMap String (List Stmt)} {ds : List ClockDomain} {rst s : Signal}
  (steady : ∀ d ∈ ds, rst ∉ resettable (sync.getD d.name []))

include steady

/-- A register keeps its value in a round if its reset reads zero. -/
theorem foldl_holdReset_off
    (only : ∀ d ∈ ds, s ∈ resettable (sync.getD d.name []) → d.rst = none ∨ d.rst = some rst)
    {acc : SimState × Bool} (low : acc.1.get? rst = some 0) :
    (ds.foldl (holdReset sync) acc).1.get? s = acc.1.get? s := by
  induction ds generalizing acc with
  | nil => rfl
  | cons d ds ih =>
    obtain ⟨here, later⟩ := List.forall_mem_cons.mp steady
    obtain ⟨own, rest⟩ := List.forall_mem_cons.mp only
    have low' : (holdReset sync acc d).1.get? rst = some 0 := by
      rw [get?_holdReset, if_neg fun on => here on.2, low]
    rw [List.foldl_cons, ih later rest low', get?_holdReset, if_neg]
    rintro ⟨on, acts⟩
    rcases own acts with absent | present
    · simp [asserted, absent] at on
    · simp [asserted, present, low] at on

/-- A register goes to its reset value in a round if its reset is on. -/
theorem foldl_holdReset_on {d : ClockDomain} (hd : d ∈ ds) (async : d.asyncReset = true)
    (reset : d.rst = some rst) (acts : s ∈ resettable (sync.getD d.name []))
    {acc : SimState × Bool} {v : Int} (high : acc.1.get? rst = some v) (on : v ≠ 0) :
    (ds.foldl (holdReset sync) acc).1.get? s = some s.resetValue := by
  induction ds generalizing acc with
  | nil => cases hd
  | cons d' ds ih =>
    obtain ⟨here, later⟩ := List.forall_mem_cons.mp steady
    rw [List.foldl_cons]
    rcases List.mem_cons.mp hd with rfl | hd
    · have taken : (holdReset sync acc d).1.get? s = some s.resetValue := by
        rw [get?_holdReset, if_pos ⟨by simp [asserted, async, reset, high, on], acts⟩]
      rcases resetFrom_foldl sync ds (holdReset sync acc d) s with same | again
      · exact same.trans taken
      · exact again
    · refine ih later hd ?_
      rw [get?_holdReset, if_neg fun on => here on.2, high]

end Resets

end Simulator

end Gateware
