import Gateware.Proofs.Memory.Made
import Gateware.Proofs.Resolution
import Gateware.Proofs.SingleDriver

/-!
# Steps that succeed

What a netlist is checked for before its simulation starts rules out all faults of later steps but
one. A reset that may be missing can be assigned to, and where it is missing, resolution puts a zero
in its place. Storing to the zero stops the run.

## Main results

`reachable_progress`: in every reachable simulation, settling and ticking a domain that is used
succeed, unless the netlist assigns to a reset that does not exist and the run comes to that
assignment. Ticking any other domain is refused and changes nothing. Widths are counted in words of
32 bits, so this is said of netlists whose slices and concatenations have a length that a word
holds; the statements that a simulation runs are the netlist's, and have it too.

## Proof strategy

Only a target can stop a run of statements without references and state machine sugar. How storing
to a resolved target can end is found by induction on the target; it is handed on from there to
statements, processes, passes and steps, which all end as their targets do.
-/
namespace Gateware

/-! ### Storing to resolved targets -/

/-- The fault of an assignment to the zero that stands for a missing reset. -/
def absentReset : SimFault := .unsupported "assignment to `0`"

/-- A run ends well, or it comes to an assignment to a missing reset, which takes `absent`. -/
def EndsUnless (absent : Prop) (ended : Except SimFault Unit) : Prop :=
  ended = .ok () ∨ ended = .error absentReset ∧ absent

theorem EndsUnless.eq_ok {absent : Prop} {ended : Except SimFault Unit}
    (h : EndsUnless absent ended) (present : ¬ absent) : ended = .ok () :=
  h.resolve_right fun failed => present failed.2

namespace Expr

theorem isTarget_of_bindRefs {b : DomainRef → Expr} (t : Expr)
    (target : (t.bindRefs b).isTarget = true) : ∀ r ∈ t.drivenRefs, (b r).isTarget = true := by
  induction t with
  | ref r => simpa [drivenRefs, bindRefs] using target
  | slice _ _ _ ih => exact ih target
  | concat ps ih | mux _ ps _ ih =>
    have parts := isTarget_of_mem target
    rw [bindRefsOf_eq_map, List.forall_mem_map] at parts
    rw [drivenRefs, drivenRefsOf_eq, List.forall_mem_flatMap]
    exact fun p hp => ih p hp (parts p hp)
  | literal | signal | unary | binary | replicate => simp [drivenRefs]

/-! ### Widths in words -/

/-- Whether the width of a node is computed without overflow. Most widths are cut off at the largest
word. The length of a slice is a plain difference, though, and that of a concatenation a plain
sum. -/
def countable : Expr → Bool
  | .slice _ start stop => start ≤ stop
  | .concat ps => (concat ps).width ≤ maxWidth
  | _ => true

/-- No width inside the expression overflows. -/
abbrev Countable (e : Expr) : Prop := ∀ k ∈ e.nodes, k.countable = true

end Expr

namespace Frame

variable {absent : Prop} {b : DomainRef → Expr}

theorem run_write_zero (v : Int) (f : Frame) :
    (write (.sized 0 (.unsigned 1)) v).run.run f = (.error absentReset, f) := rfl

/-- Every reference that is stored to stands for a signal, or for a zero if a reset is missing. -/
def Stands (absent : Prop) (b : DomainRef → Expr) (rs : List DomainRef) : Prop :=
  ∀ r ∈ rs, (∃ s, b r = .signal s) ∨ b r = .sized 0 (.unsigned 1) ∧ absent

/-- This is where a run can stop. -/
theorem Stands.ends {rs : List DomainRef} (stands : Stands absent b rs) {r : DomainRef}
    (hr : r ∈ rs) (v : Int) (f : Frame) : EndsUnless absent ((write (b r) v).run.run f).1 := by
  rcases stands r hr with ⟨s, signal⟩ | ⟨zero, missing⟩
  · rw [signal, run_write_signal]
    exact .inl rfl
  · rw [zero, run_write_zero]
    exact .inr ⟨rfl, missing⟩

end Frame

/-! ### Netlists -/

namespace Netlist

/-- Some statement assigns to the reset of a domain that has none. -/
def AssignsAbsentReset (n : Netlist) : Prop :=
  ∃ t ∈ Stmt.targetsOf n.stmts, ∃ d cd, .reset d true ∈ t.drivenRefs ∧
    n.domains.find? (·.name = d) = some cd ∧ cd.rst = none

/-- Clocked statements, a declaration or the port of a memory belong to a domain. -/
def Uses (n : Netlist) (domain : String) : Prop :=
  n.sync.contains domain = true ∨ (∃ cd ∈ n.domains, cd.name = domain) ∨
    ∃ m ∈ n.memories, ∃ p ∈ m.ports, p.domain = domain

instance (n : Netlist) (domain : String) : Decidable (n.Uses domain) :=
  inferInstanceAs (Decidable (_ ∨ (∃ cd ∈ n.domains, _) ∨ ∃ m ∈ n.memories, ∃ p ∈ m.ports, _))

/-- No width in a statement overflows, once references are resolved. -/
abbrev Countable (n : Netlist) : Prop :=
  ∀ e ∈ Stmt.exprsOf n.stmts, (e.resolved n.domains).Countable

theorem WellDriven.isTarget {n : Netlist} (driven : n.WellDriven) {t : Expr}
    (ht : t ∈ Stmt.targetsOf n.stmts) : t.isTarget = true := by
  rw [Stmt.targetsOf_eq] at ht
  obtain ⟨s, hs, ht⟩ := List.mem_flatMap.mp ht
  have inside : ∀ {ss : List Stmt}, s ∈ ss → t ∈ Stmt.targetsOf ss := fun {ss} hs => by
    rw [Stmt.targetsOf_eq]
    exact List.mem_flatMap.mpr ⟨s, hs, ht⟩
  rcases List.mem_append.mp hs with comb | sync
  · exact driven.combTargets t (inside comb)
  · obtain ⟨ss, listed, hs⟩ := List.mem_flatten.mp sync
    obtain ⟨entry, he, rfl⟩ := List.mem_map.mp listed
    exact driven.syncTargets entry he t (inside hs)

/-- Where all targets can be assigned to once they are resolved, no reset is missing. -/
theorem ResetsExist.present {n : Netlist} (exist : n.ResetsExist) : ¬ n.AssignsAbsentReset := by
  rintro ⟨t, ht, d, cd, driven, declared, none⟩
  have target := Expr.isTarget_of_bindRefs t (exist t ht) _ driven
  simp only [DomainRef.resolve, declared, none, if_true] at target
  cases target

end Netlist

/-- The statements that evaluating a process runs. -/
def Process.body : Process → List Stmt
  | .logic body _ => body
  | _ => []

namespace Simulator

open Process

/-- The statements that settling and ticking run. -/
def stmts (sim : Simulator) : List Stmt := sim.processes.flatMap body ++ sim.sync.values.flatten

namespace Loads

variable {n : Netlist} {first : Simulator} (h : Loads n first)

include h

/-- What is assigned to by name stands for a signal, or for a zero in place of a missing reset. -/
theorem stands {t : Expr} (ht : t ∈ Stmt.targetsOf n.stmts) :
    Frame.Stands n.AssignsAbsentReset (Expr.standsFor n.domains) t.drivenRefs := by
  intro r hr
  have known : r.fault? n.domains = none := by
    have all := List.findSome?_eq_none_iff.mp h.bound r (List.mem_flatMap.mpr
      ⟨t, Stmt.targetsOf_subset_exprsOf n.stmts ht, Expr.drivenRefs_subset_refs t hr⟩)
    exact Option.map_eq_none_iff.mp all
  cases found : r.resolve n.domains with
  | error fault => simp [DomainRef.fault?, found] at known
  | ok e =>
    have stands : Expr.standsFor n.domains r = e := by rw [Expr.standsFor, found]
    rcases DomainRef.resolve_ok found with ⟨s, rfl⟩ | rfl
    · exact .inl ⟨s, stands⟩
    · -- Of all references only a missing reset stands for a literal.
      have literal : (Expr.standsFor n.domains r).literal?.isSome = true := by
        rw [stands]
        rfl
      obtain ⟨d, cd, rfl, declared, none⟩ := (Expr.literal?_standsFor_iff known).mp literal
      exact .inr ⟨stands, t, ht, d, cd, hr, declared, none⟩

/-- A simulation runs the statements of its netlist, resolved. -/
theorem stmts_listed {s : Stmt} (hs : s ∈ first.stmts) :
    s ∈ Stmt.mapExprsOf (Expr.resolved n.domains) n.stmts := by
  simp only [Stmt.mapExprsOf_eq, List.mem_map]
  rcases List.mem_append.mp hs with comb | clocked
  · obtain ⟨p, hp, hs⟩ := List.mem_flatMap.mp comb
    rcases List.mem_append.mp (h.perm.mem_iff.mp hp) with logic | memory
    · obtain ⟨body, rfl, sub⟩ := mem_ofStmts logic
      have listed := sub s hs
      rw [Netlist.logic, Stmt.mapExprsOf_eq] at listed
      obtain ⟨u, hu, rfl⟩ := List.mem_map.mp listed
      exact ⟨u, n.mem_stmts_of_comb u hu, rfl⟩
    · obtain ⟨i, m, k, port, -, -, ⟨-, rfl⟩ | ⟨-, rfl⟩⟩ := mem_ofMemories_iff.mp memory <;> cases hs
  · obtain ⟨ss, listed, hs⟩ := List.mem_flatten.mp clocked
    rw [OrdMap.values, h.sync] at listed
    obtain ⟨_, moved, rfl⟩ := List.mem_map.mp listed
    obtain ⟨entry, he, rfl⟩ := List.mem_map.mp moved
    simp only [Stmt.mapExprsOf_eq] at hs
    obtain ⟨u, hu, rfl⟩ := List.mem_map.mp hs
    exact ⟨u, Netlist.mem_stmts_of_entry he u hu, rfl⟩

theorem exprs_listed {e : Expr} (he : e ∈ Stmt.exprsOf first.stmts) :
    ∃ u ∈ Stmt.exprsOf n.stmts, e = u.resolved n.domains := by
  have inside := mem_exprsOf_of_subset (fun s hs => h.stmts_listed hs) he
  rw [Stmt.exprsOf_mapExprsOf] at inside
  obtain ⟨u, hu, rfl⟩ := List.mem_map.mp inside
  exact ⟨u, hu, rfl⟩

/-- The statements of a simulation end well, missing resets aside. -/
theorem ends {body : List Stmt} (inside : ∀ s ∈ body, s ∈ first.stmts) :
    Stmt.sugarOf? body = none ∧
      Frame.Ends (EndsUnless n.AssignsAbsentReset) (Stmt.targetsOf body) (Stmt.exprsOf body) := by
  refine ⟨?_, fun t ht refs v f => ?_, fun e he => ?_⟩
  · have plain : Stmt.sugarOf? (Stmt.mapExprsOf (Expr.resolved n.domains) n.stmts) = none := by
      rw [Stmt.sugarOf?_mapExprsOf, h.plain]
      rfl
    have all := Stmt.sugarOf?_eq_none_iff.mp plain
    exact Stmt.sugarOf?_eq_none_iff.mpr fun s hs => all s (h.stmts_listed (inside s hs))
  · have target := mem_targetsOf_of_subset (fun s hs => h.stmts_listed (inside s hs)) ht
    rw [Stmt.targetsOf_mapExprsOf] at target
    obtain ⟨u, hu, rfl⟩ := List.mem_map.mp target
    exact Frame.write_ends (.inl rfl) u (h.wellDriven.isTarget hu)
      (fun _ hr => (h.stands hu).ends hr) refs v f
  · obtain ⟨u, -, rfl⟩ := h.exprs_listed (mem_exprsOf_of_subset inside he)
    exact Expr.refs_resolved n.domains u

theorem processes_end : ∀ p ∈ first.processes, p.Ends (EndsUnless n.AssignsAbsentReset) := by
  intro p hp
  cases p with
  | logic body writes =>
    exact h.ends fun s hs => List.mem_append_left _ (List.mem_flatMap.mpr ⟨_, hp, hs⟩)
  | asyncRead | registeredRead => trivial

theorem sync_ends (domain : String) (f : Frame) :
    EndsUnless n.AssignsAbsentReset
      ((Frame.execAll (first.sync.getD domain [])).run.run f).1 := by
  have inside : ∀ s ∈ first.sync.getD domain [], s ∈ first.stmts := by
    intro s hs
    rw [OrdMap.getD] at hs
    cases found : first.sync.get? domain with
    | none =>
      rw [found] at hs
      cases hs
    | some ss =>
      rw [found] at hs
      have entry := List.mem_map_of_mem (f := Prod.snd) (OrdMap.get?_eq_some_iff.mp found)
      exact List.mem_append_right _ (List.mem_flatten.mpr ⟨ss, entry, hs⟩)
  obtain ⟨plain, ends⟩ := h.ends inside
  exact Frame.execAll_ends (.inl rfl) _ f plain ends

end Loads

/-! ### Steps -/

section Steps

variable {E : Except SimFault Unit → Prop} {sim : Simulator} {domain : String}

/-- An edge fails only as the domain's statements do. -/
theorem clockEdge_ends
    (sync : ∀ f, E ((Frame.execAll (sim.sync.getD domain [])).run.run f).1) :
    (∃ next, sim.clockEdge domain = .ok next) ∨
      ∃ e, sim.clockEdge domain = .error e ∧ E (.error e) := by
  have runs := sync { state := sim.state, clocked := true }
  unfold clockEdge loaded
  dsimp only
  generalize (Frame.execAll (sim.sync.getD domain [])).run.run _ = ended at runs ⊢
  obtain ⟨e | u, f⟩ := ended
  · exact .inr ⟨e, rfl, runs⟩
  · left
    -- What follows the statements cannot fail, in reset or out of it.
    by_cases reset : sim.inReset domain = true
    · rw [reset]
      exact ⟨_, rfl⟩
    · rw [Bool.eq_false_iff.mpr reset]
      exact ⟨_, rfl⟩

theorem settle_ends (ok : E (.ok ())) (processes : ∀ p ∈ sim.processes, p.Ends E) :
    E (settle.run.run sim).1 := by
  rw [run_settle]
  exact settled_ends ok processes

/-- A tick of a known domain fails only as its settlings and its edge do. -/
theorem tick_ends (ok : E (.ok ())) (processes : ∀ p ∈ sim.processes, p.Ends E)
    (sync : ∀ f, E ((Frame.execAll (sim.sync.getD domain [])).run.run f).1)
    (known : sim.knows domain = true) : E ((tick domain).run.run sim).1 := by
  have settles := settle_ends ok processes
  have design := sameDesign_settle sim
  rw [run_tick, known, if_pos rfl]
  generalize settle.run.run sim = ended at settles design ⊢
  obtain ⟨e | u, mid⟩ := ended
  · exact settles
  · -- The edge and the last settling see the same statements and processes.
    have sync : ∀ f, E ((Frame.execAll (mid.sync.getD domain [])).run.run f).1 := by
      rw [design.sync]
      exact sync
    dsimp only
    rcases clockEdge_ends sync with ⟨next, edge⟩ | ⟨e, failed, fault⟩
    · rw [edge]
      refine settle_ends ok ?_
      rw [(sameDesign_clockEdge edge).processes, design.processes]
      exact processes
    · rw [failed]
      exact fault

end Steps

namespace SameDesign

variable {n : Netlist} {sim first : Simulator} (same : SameDesign sim first) (loads : Loads n first)

include same loads

theorem settle_ends : EndsUnless n.AssignsAbsentReset (settle.run.run sim).1 := by
  refine Simulator.settle_ends (.inl rfl) ?_
  rw [same.processes]
  exact loads.processes_end

theorem tick_ends {domain : String} (known : sim.knows domain = true) :
    EndsUnless n.AssignsAbsentReset ((tick domain).run.run sim).1 := by
  refine Simulator.tick_ends (.inl rfl) ?_ ?_ known
  · rw [same.processes]
    exact loads.processes_end
  · rw [same.sync]
    exact loads.sync_ends domain

end SameDesign

/-! ### Reachable simulations -/

namespace Reachable

variable {n : Netlist} {sim : Simulator} (h : Reachable n sim)

include h

theorem memories : sim.memories.map (·.memory) = n.memories := by
  refine h.invariant (P := fun sim => sim.memories.map (·.memory) = n.memories) ?_ ?_ ?_ ?_
  · intro sim same
    rw [run_settle]
    exact same
  · exact fun sim domain next same edge => (map_memory_clockEdge edge).trans same
  · exact fun first loads => loads.memories_eq
  · exact fun sim s v same => same

/-- A simulation knows the domains that its netlist uses. -/
theorem knows_iff (domain : String) : sim.knows domain = true ↔ n.Uses domain := by
  obtain ⟨first, loads, same⟩ := h.sameDesign
  have lists : sim.sync.contains domain = n.sync.contains domain := by
    rw [same.sync, loads.sync, OrdMap.contains, OrdMap.get?_map, Option.isSome_map]
    rfl
  have ports : (sim.memories.any fun m => m.memory.ports.any (·.domain = domain)) =
      n.memories.any fun m => m.ports.any (·.domain = domain) := by
    rw [← h.memories, List.any_map]
    rfl
  rw [knows, lists, same.domains, loads.domains, ports]
  simp [Netlist.Uses, or_assoc]

end Reachable

/-- Of a netlist without overflowing widths, no step of a simulation fails on a known domain, unless
the netlist assigns to a reset that does not exist and the step comes to the assignment. A tick of
an unknown domain is refused and leaves everything as it is. No width of what the steps run
overflows either. -/
theorem reachable_progress (n : Netlist) (countable : n.Countable) (sim : Simulator)
    (reached : Reachable n sim) :
    (∀ e ∈ Stmt.exprsOf sim.stmts, e.Countable) ∧
    EndsUnless n.AssignsAbsentReset (settle.run.run sim).1 ∧
    ∀ domain,
      (n.Uses domain → EndsUnless n.AssignsAbsentReset ((tick domain).run.run sim).1) ∧
      (¬ n.Uses domain → (tick domain).run.run sim = (.error (.unknownDomain domain), sim)) := by
  obtain ⟨first, loads, same⟩ := reached.sameDesign
  refine ⟨fun e he => ?_, same.settle_ends loads, fun domain => ⟨fun used => ?_, fun unused => ?_⟩⟩
  · rw [stmts, same.processes, same.sync] at he
    obtain ⟨u, hu, rfl⟩ := loads.exprs_listed he
    exact countable u hu
  · exact same.tick_ends loads ((reached.knows_iff domain).mpr used)
  · have unknown : sim.knows domain = false :=
      Bool.eq_false_iff.mpr fun known => unused ((reached.knows_iff domain).mp known)
    rw [run_tick, unknown]
    rfl

open Signal (wire)

theorem resetAnd_progress :
    ∃ sim, Reachable (resetAnd (wire 6 "q" 1)) sim ∧ sim.peek (wire 4 "request" 1) = 1 ∧
      (settle.run.run sim).1 = .ok () ∧ ((tick "io").run.run sim).1 = .ok () ∧
      (tick "mem").run.run sim = (.error (.unknownDomain "mem"), sim) := by
  obtain ⟨sim, started⟩ :=
    exists_ok (by decide +kernel : (start (resetAnd (wire 6 "q" 1))).isOk = true)
  have exist : (resetAnd (wire 6 "q" 1)).ResetsExist := by decide +kernel
  have reached := Reachable.poke (wire 4 "request" 1) 1 (.start (starts_of_start started))
  obtain ⟨-, settles, ticks⟩ := reachable_progress _ (by decide +kernel) _ reached
  have requested : (sim.poke (wire 4 "request" 1) 1).peek (wire 4 "request" 1) = 1 :=
    SimState.value_of_get? (OrdMap.get?_insert_self ..)
  exact ⟨_, reached, requested, settles.eq_ok exist.present,
    ((ticks "io").1 (.inl (by decide +kernel))).eq_ok exist.present,
    (ticks "mem").2 (by decide +kernel)⟩

/-! ### A reset that does not exist -/

/-- A request for the reset of a domain that has none, made while enabled and on each clock edge. -/
def unresettable : Netlist where
  comb := [.branch (wire 1 "enable" 1) [.assign (.resetOrZero "por") (wire 2 "request" 1)] []]
  sync := .ofList [("por", [.assign (.resetOrZero "por") (wire 2 "request" 1)])]
  domains := [{ name := "por", clk := wire 0 "por_clk" 1, rst := none, asyncReset := false }]

/-- The netlist is accepted, and still ticking its domain fails, and settling once enabled. -/
theorem unresettable_stuck :
    ∃ sim, start unresettable = .ok sim ∧ unresettable.Uses "por" ∧
      ((tick "por").run.run sim).1 = .error absentReset ∧
      (settle.run.run (sim.poke (wire 1 "enable" 1) 1)).1 = .error absentReset := by
  obtain ⟨sim, started⟩ := exists_ok (by decide +kernel : (start unresettable).isOk = true)
  have fails : ∀ sim, start unresettable = .ok sim →
      ((tick "por").run.run sim).1 = .error absentReset ∧
      (settle.run.run (sim.poke (wire 1 "enable" 1) 1)).1 = .error absentReset :=
    forall_ok (by decide +kernel)
  exact ⟨sim, started, .inl (by decide +kernel), fails sim started⟩

end Simulator

end Gateware
