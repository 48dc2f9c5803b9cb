import Gateware.Proofs.Folding.Reads
import Gateware.Proofs.Folding.Run
import Gateware.Proofs.Progress

/-!
# Combinational feedback

Processes are ordered by what they read from each other; what a process reads from itself does not
count. Feedback between processes is therefore reported, while a signal that depends on itself
inside one process passes.

## Main results

`feedback_reported`: two signals that depend on each other are driven by one process, or the netlist
is refused. Past the earlier checks a loop is reported exactly if processes depend on each other in
a circle.

## Proof strategy

A signal that `t` depends on is read by the process that drives `t`, so a path between signals turns
into a path between their processes that stands still where it stays in one process. If it does move
on and comes back, the processes have no order.
-/
namespace Gateware

open Relation (TransGen ReflTransGen)

namespace Process

/-! ### Processes in a circle -/

/-- One process reads what another one drives. -/
def Supplies (ps : List Process) (i j : Nat) : Prop :=
  i ≠ j ∧ ∃ p, ps[i]? = some p ∧ ∃ q, ps[j]? = some q ∧ ∃ s ∈ p.outputs, s ∈ q.inputs

/-- Some process depends on itself through others. -/
def Circular (ps : List Process) : Prop := ∃ i, TransGen (Supplies ps) i i

variable {ps : List Process}

theorem supplies_of_edge {i j : Nat} (edge : (graph ps).Edge i j) : Supplies ps i j := by
  obtain ⟨differ, q, hq, s, reads, found⟩ := edge_graph.mp edge
  obtain ⟨p, hp, drives⟩ := drivers_sound ps found
  exact ⟨differ, p, hp, q, hq, s, drives, reads⟩

theorem Apart.edge_of_supplies (apart : Apart ps) {i j : Nat} (h : Supplies ps i j) :
    (graph ps).Edge i j := by
  obtain ⟨differ, p, hp, q, hq, s, drives, reads⟩ := h
  exact edge_graph.mpr ⟨differ, q, hq, s, reads, apart.driver_eq hp drives⟩

theorem Apart.not_circular (apart : Apart ps) {qs : List Process} (h : Orders ps qs) :
    ¬ Circular ps := by
  rintro ⟨i, cycle⟩
  exact h.acyclic i (TransGen.mono (fun _ _ => apart.edge_of_supplies) _ _ cycle)

/-- Processes that cannot be put in order are reported as a loop, and they do form one. -/
theorem circular_of_error {fault : SimFault} (h : ordered ps = .error fault) :
    (∃ name, fault = .combinationalLoop name) ∧ Circular ps := by
  constructor
  · simp only [ordered] at h
    split at h
    · cases h
      exact ⟨_, rfl⟩
    · cases h
  · by_contra straight
    have acyclic : (graph ps).Acyclic := fun i cycle =>
      straight ⟨i, TransGen.mono (fun _ _ => supplies_of_edge) _ _ cycle⟩
    obtain ⟨order, found⟩ := Graph.order_of_acyclic (inside_graph ps) acyclic
    simp only [ordered, found] at h
    cases h

/-! ### Paths between signals and between processes -/

/-- The process at a place drives the signal. -/
def DrivenAt (ps : List Process) (s : Signal) (i : Nat) : Prop :=
  ∃ p, ps[i]? = some p ∧ s ∈ p.outputs

theorem Apart.drivenAt_unique (apart : Apart ps) {s : Signal} {i j : Nat} (hi : DrivenAt ps s i)
    (hj : DrivenAt ps s j) : i = j := by
  obtain ⟨p, hp, mine⟩ := hi
  obtain ⟨q, hq, other⟩ := hj
  have same := apart.driver_eq hp mine
  rw [apart.driver_eq hq other] at same
  exact (Option.some.inj same).symm

/-- `t` is driven by a process that reads `s`. -/
def Passes (ps : List Process) (s t : Signal) : Prop := ∃ p ∈ ps, t ∈ p.outputs ∧ s ∈ p.inputs

theorem Passes.supplies {s t : Signal} (step : Passes ps s t) {i : Nat} (hi : DrivenAt ps s i) :
    ∃ j, DrivenAt ps t j ∧ (i = j ∨ Supplies ps i j) := by
  obtain ⟨q, hq, drives, reads⟩ := step
  obtain ⟨p, hp, mine⟩ := hi
  obtain ⟨j, hj⟩ := List.mem_iff_getElem?.mp hq
  refine ⟨j, ⟨q, hj, drives⟩, ?_⟩
  by_cases same : i = j
  · exact .inl same
  · exact .inr ⟨same, p, hp, q, hj, s, mine, reads⟩

theorem Passes.path {s t : Signal} (path : TransGen (Passes ps) s t) {i : Nat}
    (hi : DrivenAt ps s i) : ∃ j, DrivenAt ps t j ∧ ReflTransGen (Supplies ps) i j := by
  induction path with
  | single step =>
    obtain ⟨j, hj, rfl | supplies⟩ := step.supplies hi
    · exact ⟨i, hj, .refl⟩
    · exact ⟨j, hj, .single supplies⟩
  | tail _ step ih =>
    obtain ⟨j, hj, path⟩ := ih
    obtain ⟨k, hk, rfl | supplies⟩ := step.supplies hj
    · exact ⟨j, hk, path⟩
    · exact ⟨k, hk, path.tail supplies⟩

theorem Passes.driven {s t : Signal} (path : TransGen (Passes ps) s t) : ∃ i, DrivenAt ps t i := by
  obtain ⟨u, -, p, hp, drives, -⟩ := TransGen.tail'_iff.mp path
  obtain ⟨i, hi⟩ := List.mem_iff_getElem?.mp hp
  exact ⟨i, p, hi, drives⟩

/-- Signals that lead to each other are driven at one place, unless processes form a circle. -/
theorem Apart.drivenAt_common (apart : Apart ps) (straight : ¬ Circular ps) {s t : Signal}
    (there : TransGen (Passes ps) s t) (back : TransGen (Passes ps) t s) :
    ∃ i, DrivenAt ps s i ∧ DrivenAt ps t i := by
  obtain ⟨i, hi⟩ := Passes.driven back
  obtain ⟨j, hj, forth⟩ := Passes.path there hi
  obtain ⟨k, hk, home⟩ := Passes.path back hj
  obtain rfl := apart.drivenAt_unique hi hk
  -- A path that leaves the process closes a circle when it comes home.
  rcases ReflTransGen.cases_head forth with rfl | ⟨mid, first, rest⟩
  · exact ⟨i, hi, hj⟩
  · exact absurd ⟨i, TransGen.head' first (rest.trans home)⟩ straight

/-- A signal that leads to itself and is all that its process drives is read there. -/
theorem Apart.reads_own (apart : Apart ps) (straight : ¬ Circular ps) {s : Signal}
    (loop : TransGen (Passes ps) s s) {i : Nat} {p : Process} (hp : ps[i]? = some p)
    (alone : ∀ u, u ∈ p.outputs ↔ u = s) : s ∈ p.inputs := by
  have here : DrivenAt ps s i := ⟨p, hp, (alone s).mpr rfl⟩
  obtain ⟨u, step, rest⟩ := TransGen.head'_iff.mp loop
  -- The first step stays in the process, so it comes back at once.
  obtain ⟨k, hs, q, hq, drives⟩ :=
    apart.drivenAt_common straight (.single step) (TransGen.trans_right rest loop)
  obtain rfl := apart.drivenAt_unique here hs
  rw [hp] at hq
  cases hq
  obtain rfl := (alone u).mp drives
  obtain ⟨q, hq, drives, reads⟩ := step
  obtain ⟨j, hj⟩ := List.mem_iff_getElem?.mp hq
  obtain rfl := apart.drivenAt_unique here ⟨q, hj, drives⟩
  rw [hp] at hj
  cases hj
  exact reads

end Process

/-! ### Netlists -/

/-- The value of `t` follows that of `s` without a clock edge: the final expression of `t` mentions
`s`, or `t` is what a memory shows at the address `s`. -/
def Netlist.Feeds (n : Netlist) (s t : Signal) : Prop :=
  (∃ e, (Stmt.folded n.logic).get? t = some e ∧ s ∈ e.mentions) ∨
    ∃ m ∈ n.memories, ∃ p ∈ m.ports, p.asyncRead = true ∧ s = p.adr ∧ t = p.datR

/-- The netlist passes all checks before its processes are ordered. -/
structure Netlist.Checked (n : Netlist) (ms : List MemoryState) : Prop where
  drivers : n.checkDrivers = .ok ()
  plain : Stmt.sugarOf? n.stmts = none
  bound : Expr.dangling? n.domains (Stmt.exprsOf n.stmts) = none
  memories : Simulator.memoriesOf n = .ok ms

namespace Process

theorem exists_driver {ss : List Stmt} {x : Signal} (h : x ∈ Stmt.assigned ss) :
    ∃ p ∈ ofStmts ss, x ∈ p.outputs := by
  obtain ⟨s, hs, assigned⟩ := Stmt.mem_assigned.mp h
  obtain ⟨i, found⟩ := List.mem_iff_getElem?.mp hs
  obtain ⟨g, hg, member⟩ := (grouped ss).covered i s found
  refine ⟨_, List.mem_map_of_mem hg, ?_⟩
  exact ((grouped ss).writes g hg x).mpr ⟨i, s, member, assigned⟩

end Process

namespace Simulator

open Process

variable {n : Netlist} {sim : Simulator} {s t : Signal}

namespace Loads

variable (h : Loads n sim)

include h

theorem isPlace {u : Expr} (hu : u ∈ Stmt.targetsOf n.logic) : u.isPlace = true := by
  rw [Netlist.logic, Stmt.targetsOf_mapExprsOf] at hu
  obtain ⟨t, ht, rfl⟩ := List.mem_map.mp hu
  exact Expr.isPlace_resolved n.domains (h.wellDriven.combTargets t ht)

theorem passes (feeds : n.Feeds s t) :
    Passes (ofStmts n.logic ++ ofMemories sim.memories) s t := by
  rcases feeds with ⟨e, found, mentioned⟩ | ⟨m, hm, p, hp, async, rfl, rfl⟩
  · have assigned : t ∈ Stmt.assigned n.logic := by
      rw [← Stmt.keys_folded h.plain_logic, OrdMap.mem_keys, found]
      rfl
    obtain ⟨p, hp, driven⟩ := exists_driver assigned
    have reads := folded_reads (fun u hu => h.isPlace hu) hp driven found mentioned
    exact ⟨p, List.mem_append_left _ hp, driven, reads⟩
  · rw [← h.memories_eq] at hm
    obtain ⟨i, hi⟩ := List.mem_iff_getElem?.mp hm
    obtain ⟨k, hk⟩ := List.mem_iff_getElem?.mp hp
    have listed : Process.asyncRead i p ∈ ofMemories sim.memories :=
      mem_ofMemories_iff.mpr ⟨i, m, k, p, hi, hk, .inl ⟨async, rfl⟩⟩
    exact ⟨_, List.mem_append_right _ listed, OrdSet.mem_singleton.mpr rfl,
      OrdSet.mem_singleton.mpr rfl⟩

theorem apart_processes (resets : n.ResetsApart) :
    Apart (ofStmts n.logic ++ ofMemories sim.memories) := by
  refine h.apart_of_free fun m hm p hp => ?_
  have listed : m.memory ∈ n.memories := by
    rw [← h.memories_eq]
    exact List.mem_map_of_mem hm
  exact (h.datR_free resets listed hp).1

/-- In a netlist that loads, signals that depend on each other are driven by one process of its
statements. -/
theorem feedback_inside (resets : n.ResetsApart)
    (there : TransGen n.Feeds s t) (back : TransGen n.Feeds t s) :
    ∃ p ∈ ofStmts n.logic, s ∈ p.outputs ∧ t ∈ p.outputs := by
  have apart := h.apart_processes resets
  have straight := apart.not_circular h.orders
  have there := TransGen.mono (fun _ _ => h.passes) _ _ there
  have back := TransGen.mono (fun _ _ => h.passes) _ _ back
  obtain ⟨i, ⟨p, hp, mine⟩, q, hq, other⟩ := apart.drivenAt_common straight there back
  rw [hp] at hq
  cases hq
  rcases List.mem_append.mp (List.mem_of_getElem? hp) with logic | memory
  · exact ⟨p, logic, mine, other⟩
  · -- A read of a memory drives one signal, and not from that signal itself.
    exfalso
    obtain ⟨j, m, k, port, hm, hport, kind⟩ := mem_ofMemories_iff.mp memory
    have outputs : p.outputs = .singleton port.datR := by
      rcases kind with ⟨-, rfl⟩ | ⟨-, rfl⟩ <;> rfl
    have alone : ∀ u, u ∈ p.outputs ↔ u = s := by
      intro u
      rw [outputs, OrdSet.mem_singleton] at mine ⊢
      rw [mine]
    have reads := apart.reads_own straight (there.trans back) hp alone
    rw [outputs, OrdSet.mem_singleton] at mine
    rcases kind with ⟨-, rfl⟩ | ⟨-, rfl⟩
    · have address : s = port.adr := OrdSet.mem_singleton.mp reads
      exact m.own.apart port (List.mem_of_getElem? hport) (address.symm.trans mine)
    · exact OrdSet.not_mem_empty s reads

/-- Settling reports no loop. -/
theorem not_loop_of_start {name : String} : start n ≠ .error (.combinationalLoop name) := by
  intro failed
  -- Starting takes the order that is found, which may be another one than that of `sim`.
  obtain ⟨ps, found⟩ := h.orders.found
  have loaded := h.load_eq found
  have ends := settle_ends (.inl rfl) (loads_of_load loaded).processes_end
  unfold start at failed
  rw [loaded] at failed
  change (settle.run.run { sim with processes := ps }).1 >>= _ = _ at failed
  -- The one fault that settling can end with is of another kind.
  rcases ends with ended | ⟨ended, -⟩
  · rw [ended] at failed
    cases failed
  · rw [ended] at failed
    cases failed

end Loads

theorem load_of_checked {ms : List MemoryState} (checked : n.Checked ms) :
    (∃ sim, Loads n sim ∧ sim.memories = ms) ∨
      ∃ fault, ordered (ofStmts n.logic ++ ofMemories ms) = .error fault ∧
        start n = .error fault := by
  cases found : ordered (ofStmts n.logic ++ ofMemories ms) with
  | ok ps =>
    left
    refine ⟨{ state := .ofKeys (signalsOf n) Signal.resetValue, processes := ps
              sync := n.sync.map (Stmt.mapExprsOf (Expr.resolved n.domains)), domains := n.domains
              memories := ms, cycles := ∅ }, ?_, rfl⟩
    exact ⟨checked.drivers, checked.plain, checked.bound, checked.memories, orders_of_ordered found,
      rfl, rfl, rfl, rfl⟩
  | error fault =>
    right
    refine ⟨fault, rfl, ?_⟩
    have loaded : load n = .error fault := by
      unfold load
      rw [checked.drivers, checked.plain, checked.bound, checked.memories]
      change (ordered (ofStmts n.logic ++ ofMemories ms) >>= _) = _
      rw [found]
      rfl
    rw [start, loaded]
    rfl

/-- Two signals that depend on each other without a clock edge are driven by one process of
statements, or the netlist is refused: with a loop, or by a check before. Past those checks a loop
is reported exactly if processes depend on each other in a circle. -/
theorem feedback_reported (n : Netlist) (resets : n.ResetsApart) :
    (∀ s t, TransGen n.Feeds s t → TransGen n.Feeds t s →
      (∃ p ∈ ofStmts n.logic, s ∈ p.outputs ∧ t ∈ p.outputs) ∨
      ∃ fault, start n = .error fault ∧
        ((∃ ms, n.Checked ms) → ∃ name, fault = .combinationalLoop name)) ∧
    ∀ ms, n.Checked ms → ((∃ name, start n = .error (.combinationalLoop name)) ↔
      Circular (ofStmts n.logic ++ ofMemories ms)) := by
  constructor
  · intro s t there back
    by_cases common : ∃ p ∈ ofStmts n.logic, s ∈ p.outputs ∧ t ∈ p.outputs
    · exact .inl common
    -- No check has to be named here: whatever lets the netlist load is contradicted.
    have refused (sim : Simulator) : ¬ Loads n sim := fun loads =>
      common (loads.feedback_inside resets there back)
    right
    cases started : start n with
    | ok sim =>
      obtain ⟨first, loads, -⟩ := starts_of_start started
      exact absurd loads (refused first)
    | error fault =>
      refine ⟨fault, rfl, fun passed => ?_⟩
      obtain ⟨ms, checked⟩ := passed
      rcases load_of_checked checked with ⟨sim, loads, -⟩ | ⟨found, failed, same⟩
      · exact absurd loads (refused sim)
      · rw [started] at same
        cases same
        exact (circular_of_error failed).1
  · intro ms checked
    rcases load_of_checked checked with ⟨sim, loads, rfl⟩ | ⟨fault, failed, started⟩
    · have straight := (loads.apart_processes resets).not_circular loads.orders
      refine ⟨fun loop => ?_, fun circular => absurd circular straight⟩
      obtain ⟨name, failed⟩ := loop
      exact absurd failed loads.not_loop_of_start
    · obtain ⟨⟨name, rfl⟩, circular⟩ := circular_of_error failed
      exact ⟨fun _ => circular, fun _ => ⟨name, started⟩⟩

open Signal (wire)

/-- A table whose word is the address of the next one. -/
def chase : Netlist where
  comb := [.assign (wire 0 "address" 4) (wire 1 "word" 4)]
  cells := .ofList [(⟨0⟩, ⟨⟨0⟩, .memory {
    name := "links", width := 4, depth := 16, init := [3, 0, 1, 2]
    ports := [{
      name := "r", adr := wire 0 "address" 4, datR := wire 1 "word" 4, write := none, re := none
      mode := .readFirst, asyncRead := true, granularity := 0, domain := "sys" }] }⟩)]

/-- The loop goes through the statement and the memory, which are two processes. -/
theorem chase_refused :
    chase.ResetsApart ∧
    TransGen chase.Feeds (wire 0 "address" 4) (wire 1 "word" 4) ∧
    TransGen chase.Feeds (wire 1 "word" 4) (wire 0 "address" 4) ∧
    ∃ ms, chase.Checked ms ∧ (∃ name, start chase = .error (.combinationalLoop name)) ∧
      Circular (ofStmts chase.logic ++ ofMemories ms) := by
  have resets : chase.ResetsApart := by decide +kernel
  have there : TransGen chase.Feeds (wire 0 "address" 4) (wire 1 "word" 4) := by
    exact .single (.inr
      ⟨_, List.mem_of_getElem? (i := 0) rfl, _, List.mem_cons_self, rfl, rfl, rfl⟩)
  have back : TransGen chase.Feeds (wire 1 "word" 4) (wire 0 "address" 4) :=
    .single (.inl ⟨wire 1 "word" 4, by decide +kernel, List.mem_cons_self⟩)
  have apart : ∀ p ∈ ofStmts chase.logic,
      ¬ (wire 0 "address" 4 ∈ p.outputs ∧ wire 1 "word" 4 ∈ p.outputs) := by decide +kernel
  obtain ⟨ms, memories⟩ := exists_ok (by decide +kernel : (memoriesOf chase).isOk = true)
  have checked : chase.Checked ms :=
    ⟨by decide +kernel, by decide +kernel, by decide +kernel, memories⟩
  obtain ⟨cycles, reported⟩ := feedback_reported chase resets
  have loop : ∃ name, start chase = .error (.combinationalLoop name) := by
    rcases cycles _ _ there back with ⟨p, hp, both⟩ | ⟨fault, failed, kind⟩
    · exact absurd both (apart p hp)
    · obtain ⟨name, rfl⟩ := kind ⟨ms, checked⟩
      exact ⟨name, failed⟩
  exact ⟨resets, there, back, ms, checked, loop, (reported ms checked).mp loop⟩

/-- A signal that is assigned its own complement. -/
def oscillator : Netlist where
  comb := [.assign (wire 0 "x" 1) (.unary .invert (wire 0 "x" 1))]

/-- The simulation starts although the signal depends on itself. -/
theorem oscillator_accepted :
    oscillator.Feeds (wire 0 "x" 1) (wire 0 "x" 1) ∧ ∃ sim, start oscillator = .ok sim := by
  refine ⟨.inl ⟨.unary .invert (wire 0 "x" 1), by decide +kernel, List.mem_cons_self⟩, ?_⟩
  exact exists_ok (by decide +kernel)

end Simulator

end Gateware
