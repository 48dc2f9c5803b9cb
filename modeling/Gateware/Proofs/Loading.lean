import Gateware.Proofs.Drivers
import Gateware.Proofs.Grouping
import Gateware.Proofs.Pass
import Mathlib.Data.List.Forall2

/-!
# Loaded netlists

What is known of the processes of a simulation that a netlist was accepted for: they read and drive
what their inputs and outputs say, they drive every signal once, and they run in a schedule, which
may be any (`Loads`).
-/
namespace Gateware

namespace Memory

theorem run_addPort (m : Memory) (spec : PortSpec) (u : Supply) :
    (m.addPort spec).run.run u =
      match m.portFault? spec with
      | some fault => (.error fault, u)
      | none => (.ok ((m.newPort spec u).1, m.withPort spec u), (m.newPort spec u).2) := by
  unfold addPort
  cases m.portFault? spec <;> rfl

theorem addPort_ok {m next : Memory} {spec : PortSpec} {port : Port} {u after : Supply}
    (added : (m.addPort spec).run.run u = (.ok (port, next), after)) :
    m.portFault? spec = none ∧ port = (m.newPort spec u).1 ∧ next = m.withPort spec u := by
  rw [run_addPort] at added
  cases free : m.portFault? spec with
  | some fault =>
    rw [free] at added
    cases added
  | none =>
    rw [free] at added
    cases added
    exact ⟨rfl, rfl, rfl⟩

end Memory

/-- The memories of a netlist. -/
def Netlist.memories (n : Netlist) : List Memory :=
  n.cells.values.filterMap fun c =>
    match c.kind with
    | .memory m => some m
    | _ => none

/-- The combinational statements once references are resolved. -/
def Netlist.logic (n : Netlist) : List Stmt := Stmt.mapExprsOf (Expr.resolved n.domains) n.comb

/-- No combinational statement assigns to a reset by its domain. -/
def Netlist.ResetsUndriven (n : Netlist) : Prop :=
  ∀ t ∈ Stmt.targetsOf n.comb, t.drivesRef = false

instance (n : Netlist) : Decidable n.ResetsUndriven :=
  inferInstanceAs (Decidable (∀ t ∈ Stmt.targetsOf n.comb, t.drivesRef = false))

/-- What is assigned by a reference to a domain is not the data of a port. -/
def Netlist.ResetsApart (n : Netlist) : Prop :=
  ∀ t ∈ Stmt.targetsOf n.stmts, t.drivesRef = true →
    ∀ m ∈ n.memories, ∀ p ∈ m.ports, p.datR ∉ (t.resolved n.domains).drives

instance (n : Netlist) : Decidable n.ResetsApart :=
  inferInstanceAs (Decidable (∀ t ∈ Stmt.targetsOf n.stmts, t.drivesRef = true →
    ∀ m ∈ n.memories, ∀ p ∈ m.ports, p.datR ∉ (t.resolved n.domains).drives))

theorem exists_left {α β : Type} {R : α → β → Prop} {xs : List α} {ys : List β}
    (h : List.Forall₂ R xs ys) {y : β} (hy : y ∈ ys) : ∃ x ∈ xs, R x y := by
  induction h with
  | nil => cases hy
  | cons head _ ih =>
    rcases List.mem_cons.mp hy with rfl | hy
    · exact ⟨_, List.mem_cons_self .., head⟩
    · obtain ⟨x, hx, related⟩ := ih hy
      exact ⟨x, List.mem_cons_of_mem _ hx, related⟩

namespace Simulator

open Process

/-! ### Loading -/

/-- The signals that get a value. -/
def signalsOf (n : Netlist) : OrdSet Signal :=
  (touched n.comb ∪
    touched (n.sync.map (Stmt.mapExprsOf (Expr.resolved n.domains))).values.flatten).insertAll
    (n.domains.flatMap ClockDomain.signals)

/-- A netlist is loaded, with its processes in any order that only leads forward. -/
structure Loads (n : Netlist) (sim : Simulator) : Prop where
  checked : n.checkDrivers = .ok ()
  plain : Stmt.sugarOf? n.stmts = none
  bound : Expr.dangling? n.domains (Stmt.exprsOf n.stmts) = none
  memories : memoriesOf n = .ok sim.memories
  orders : Orders (ofStmts n.logic ++ ofMemories sim.memories) sim.processes
  state : sim.state = .ofKeys (signalsOf n) Signal.resetValue
  sync : sim.sync = n.sync.map (Stmt.mapExprsOf (Expr.resolved n.domains))
  domains : sim.domains = n.domains
  cycles : sim.cycles = ∅

theorem loads_of_load {n : Netlist} {sim : Simulator} (h : load n = .ok sim) : Loads n sim := by
  unfold load at h
  obtain ⟨⟨⟩, checked, h⟩ := bind_eq_ok.mp h
  cases plain : Stmt.sugarOf? n.stmts with
  | some s =>
    rw [plain] at h
    cases h
  | none =>
    cases bound : Expr.dangling? n.domains (Stmt.exprsOf n.stmts) with
    | some r =>
      rw [plain, bound] at h
      cases h
    | none =>
      rw [plain, bound] at h
      obtain ⟨ms, memories, h⟩ := bind_eq_ok.mp h
      obtain ⟨ps, ordered, h⟩ := bind_eq_ok.mp h
      cases h
      refine ⟨?_, plain, bound, memories, orders_of_ordered ordered, rfl, rfl, rfl, rfl⟩
      cases drivers : n.checkDrivers with
      | error f =>
        rw [drivers] at checked
        cases checked
      | ok u => rfl

/-- Loading gives the processes in the order that is found. -/
theorem Loads.load_eq {n : Netlist} {sim : Simulator} (h : Loads n sim) {ps : List Process}
    (found : ordered (ofStmts n.logic ++ ofMemories sim.memories) = .ok ps) :
    load n = .ok { sim with processes := ps } := by
  obtain ⟨checked, plain, bound, memories, -, state, sync, domains, cycles⟩ := h
  obtain ⟨σ, qs, sy, ds, ms, cs⟩ := sim
  dsimp only at memories found state sync domains cycles
  subst state sync domains cycles
  unfold load
  rw [checked, plain, bound]
  exact bind_eq_ok.mpr ⟨(), rfl, bind_eq_ok.mpr ⟨ms, memories, bind_eq_ok.mpr ⟨ps, found, rfl⟩⟩⟩

/-- Simulations of a netlist are loaded with the same of everything but the order. -/
theorem Loads.eq_of_loads {n : Netlist} {sim sim' : Simulator} (h : Loads n sim)
    (h' : Loads n sim') : sim' = { sim with processes := sim'.processes } := by
  have memories : sim'.memories = sim.memories :=
    Except.ok.inj (h'.memories.symm.trans h.memories)
  obtain ⟨σ, ps, sy, ds, ms, cs⟩ := sim'
  simp only [Simulator.mk.injEq, true_and]
  exact ⟨h'.state.trans h.state.symm, h'.sync.trans h.sync.symm, h'.domains.trans h.domains.symm,
    memories, h'.cycles.trans h.cycles.symm⟩

/-! ### Memories -/

/-- The reads of one memory. -/
def readsOf (m : MemoryState) (i : Nat) : List Process :=
  m.memory.ports.zipIdx.filterMap fun (p, k) =>
    if p.asyncRead then some (.asyncRead i p)
    else if p.mode = .writeFirst then some (.registeredRead i k p)
    else none

theorem ofMemories_eq (ms : List MemoryState) :
    ofMemories ms = ms.zipIdx.flatMap fun x => readsOf x.1 x.2 := rfl

/-- A read of a memory drives the data of one of its ports. -/
theorem read_spec {i k : Nat} {p : Memory.Port} {q : Process}
    (h : (if p.asyncRead then some (.asyncRead i p)
      else if p.mode = .writeFirst then some (.registeredRead i k p) else none) = some q) :
    q.outputs = .singleton p.datR ∧ (p.adr ≠ p.datR → q.Sound) ∧ q.Total := by
  split at h
  · cases h
    exact ⟨rfl, id, trivial⟩
  · split at h
    · cases h
      exact ⟨rfl, fun _ => trivial, trivial⟩
    · cases h

theorem mem_readsOf {m : MemoryState} {i : Nat} {q : Process} (h : q ∈ readsOf m i) :
    ∃ p ∈ m.memory.ports, q.outputs = .singleton p.datR ∧ (p.adr ≠ p.datR → q.Sound) ∧
      q.Total := by
  obtain ⟨⟨p, k⟩, hp, given⟩ := List.mem_filterMap.mp h
  exact ⟨p, List.fst_mem_of_mem_zipIdx hp, read_spec given⟩

theorem mem_ofMemories {ms : List MemoryState} {q : Process} (h : q ∈ ofMemories ms) :
    ∃ m ∈ ms, ∃ p ∈ m.memory.ports, q.outputs = .singleton p.datR ∧
      (p.adr ≠ p.datR → q.Sound) ∧ q.Total := by
  obtain ⟨⟨m, i⟩, hm, hq⟩ := List.mem_flatMap.mp h
  exact ⟨m, List.fst_mem_of_mem_zipIdx hm, mem_readsOf hq⟩

theorem pairwise_zipIdx {α : Type} {R : α → α → Prop} {xs : List α} (h : xs.Pairwise R) :
    xs.zipIdx.Pairwise fun x y => R x.1 y.1 := by
  refine List.pairwise_map.mp ?_
  rwa [List.zipIdx_map_fst]

theorem apart_readsOf (m : MemoryState) (i : Nat) : Apart (readsOf m i) := by
  have ports : m.memory.ports.Pairwise fun p q => p.datR ≠ q.datR :=
    List.pairwise_map.mp m.memory.own.distinct
  refine List.Pairwise.filterMap _ ?_ (pairwise_zipIdx ports)
  rintro ⟨p, k⟩ ⟨q, l⟩ differ a ha b hb s own other
  rw [(read_spec ha).1, OrdSet.mem_singleton] at own
  rw [(read_spec hb).1, OrdSet.mem_singleton] at other
  exact differ (own.symm.trans other)

/-- Cells that are memories, side by side with their states. -/
theorem memoriesOf_ok {n : Netlist} {ms : List MemoryState} (h : memoriesOf n = .ok ms) :
    List.Forall₂ (fun c m => c.kind = .memory m.memory) n.cells.values ms := by
  refine (mapM_ok_iff.mp h).imp fun c m given => ?_
  cases kind : c.kind with
  | memory mem =>
    rw [kind] at given
    cases given
    rfl
  | _ =>
    rw [kind] at given
    cases given

theorem datR_mem_cellTargets {c : Cell} {m : Memory} (kind : c.kind = .memory m) {p : Memory.Port}
    (hp : p ∈ m.ports) : p.datR ∈ Netlist.cellTargets c := by
  simp only [Netlist.cellTargets, Cell.outputs, Cell.ports, kind, Cell.Kind.ports,
    OrdSet.mem_ofList, List.mem_flatMap, List.mem_filter]
  refine ⟨⟨s!"{p.name}.dat_r", p.datR, .output⟩, ⟨⟨p, hp, ?_⟩, decide_eq_true nofun⟩,
    by simp [Expr.drives]⟩
  simp [Cell.Kind.memoryPorts]

theorem exists_cell {n : Netlist} {ms : List MemoryState} (h : memoriesOf n = .ok ms)
    {m : MemoryState} (hm : m ∈ ms) : ∃ c ∈ n.cells.values, c.kind = .memory m.memory :=
  exists_left (memoriesOf_ok h) hm

/-- Different cells drive different signals, hence so do ports of different memories. -/
theorem datR_pairwise {n : Netlist} {ms : List MemoryState} (h : memoriesOf n = .ok ms)
    (driven : n.WellDriven) : ms.Pairwise fun m m' =>
      ∀ p ∈ m.memory.ports, ∀ p' ∈ m'.memory.ports, p.datR ≠ p'.datR := by
  have pairs := memoriesOf_ok h
  have cells := driven.cells
  generalize n.cells.values = cs at pairs cells
  clear h
  induction pairs with
  | nil => exact .nil
  | @cons c m cs ms kind rest ih =>
    obtain ⟨first, cells⟩ := List.pairwise_cons.mp cells
    refine List.pairwise_cons.mpr ⟨fun m' hm' p hp p' hp' same => ?_, ih cells⟩
    obtain ⟨c', hc', kind'⟩ := exists_left rest hm'
    exact first c' hc' _ (datR_mem_cellTargets kind hp)
      (same ▸ datR_mem_cellTargets kind' hp')

theorem apart_ofMemories {n : Netlist} {ms : List MemoryState} (h : memoriesOf n = .ok ms)
    (driven : n.WellDriven) : Apart (ofMemories ms) := by
  rw [ofMemories_eq]
  refine List.pairwise_flatMap.mpr
    ⟨fun x _ => apart_readsOf x.1 x.2, (pairwise_zipIdx (datR_pairwise h driven)).imp ?_⟩
  · rintro ⟨m, i⟩ ⟨m', j⟩ differ q hq r hr s mine other
    obtain ⟨p, hp, outs, -⟩ := mem_readsOf hq
    obtain ⟨p', hp', outs', -⟩ := mem_readsOf hr
    rw [outs, OrdSet.mem_singleton] at mine
    rw [outs', OrdSet.mem_singleton] at other
    exact differ p hp p' hp' (mine.symm.trans other)

/-! ### Processes of loaded netlists -/

theorem apart_ofStmts (ss : List Stmt) : Apart (ofStmts ss) :=
  List.pairwise_map.mpr ((grouped ss).separate.imp fun separate => separate.1)

theorem mem_outputs_ofStmts {ss : List Stmt} {p : Process} (hp : p ∈ ofStmts ss) {s : Signal}
    (hs : s ∈ p.outputs) : s ∈ Stmt.assigned ss := by
  obtain ⟨body, rfl, sub⟩ := mem_ofStmts hp
  obtain ⟨t, ht, assigned⟩ := Stmt.mem_assigned.mp hs
  exact Stmt.mem_assigned.mpr ⟨t, sub t ht, assigned⟩

theorem mem_targetsOf_of_subset {ss ts : List Stmt} (sub : ∀ s ∈ ss, s ∈ ts) {t : Expr}
    (ht : t ∈ Stmt.targetsOf ss) : t ∈ Stmt.targetsOf ts := by
  rw [Stmt.targetsOf_eq] at ht ⊢
  obtain ⟨s, hs, ht⟩ := List.mem_flatMap.mp ht
  exact List.mem_flatMap.mpr ⟨s, sub s hs, ht⟩

theorem mem_exprsOf_of_subset {ss ts : List Stmt} (sub : ∀ s ∈ ss, s ∈ ts) {e : Expr}
    (he : e ∈ Stmt.exprsOf ss) : e ∈ Stmt.exprsOf ts := by
  rw [Stmt.exprsOf_eq] at he ⊢
  obtain ⟨s, hs, he⟩ := List.mem_flatMap.mp he
  exact List.mem_flatMap.mpr ⟨s, sub s hs, he⟩

namespace Loads

variable {n : Netlist} {sim : Simulator} (h : Loads n sim)

include h

theorem wellDriven : n.WellDriven := Netlist.wellDriven_of_check h.checked

theorem perm : sim.processes.Perm (ofStmts n.logic ++ ofMemories sim.memories) :=
  h.orders.perm

theorem plain_logic : Stmt.sugarOf? n.logic = none := by
  have all := Stmt.sugarOf?_eq_none_iff.mp h.plain
  have comb : Stmt.sugarOf? n.comb = none :=
    Stmt.sugarOf?_eq_none_iff.mpr fun s hs => all s (List.mem_append_left _ hs)
  rw [Netlist.logic, Stmt.sugarOf?_mapExprsOf, comb]
  rfl

theorem sound : ∀ p ∈ sim.processes, p.Sound := by
  intro p hp
  rcases List.mem_append.mp (h.perm.mem_iff.mp hp) with logic | memory
  · obtain ⟨body, rfl, sub⟩ := mem_ofStmts logic
    refine ⟨rfl, fun t ht => ?_⟩
    have target := mem_targetsOf_of_subset sub ht
    rw [Netlist.logic, Stmt.targetsOf_mapExprsOf] at target
    obtain ⟨u, hu, rfl⟩ := List.mem_map.mp target
    exact Expr.isPlace_resolved n.domains (h.wellDriven.combTargets u hu)
  · obtain ⟨m, -, port, hport, -, sound, -⟩ := mem_ofMemories memory
    exact sound (m.memory.own.apart port hport)

/-- Processes end if what they assign to can still be assigned to with references resolved. -/
theorem total_of_targets (targets : ∀ t ∈ Stmt.targetsOf n.logic, t.isTarget = true) :
    ∀ p ∈ sim.processes, p.Total := by
  intro p hp
  rcases List.mem_append.mp (h.perm.mem_iff.mp hp) with logic | memory
  · obtain ⟨body, rfl, sub⟩ := mem_ofStmts logic
    refine ⟨?_, fun t ht => targets t (mem_targetsOf_of_subset sub ht), fun e he => ?_⟩
    · have all := Stmt.sugarOf?_eq_none_iff.mp h.plain_logic
      exact Stmt.sugarOf?_eq_none_iff.mpr fun s hs => all s (sub s hs)
    · have inside := mem_exprsOf_of_subset sub he
      rw [Netlist.logic, Stmt.exprsOf_mapExprsOf] at inside
      obtain ⟨u, -, rfl⟩ := List.mem_map.mp inside
      exact Expr.refs_resolved n.domains u
  · obtain ⟨-, -, -, -, -, -, total⟩ := mem_ofMemories memory
    exact total

theorem total (undriven : n.ResetsUndriven) : ∀ p ∈ sim.processes, p.Total := by
  refine h.total_of_targets fun t ht => ?_
  rw [Netlist.logic, Stmt.targetsOf_mapExprsOf] at ht
  obtain ⟨u, hu, rfl⟩ := List.mem_map.mp ht
  rw [Expr.isTarget_resolved n.domains (undriven u hu)]
  exact h.wellDriven.combTargets u hu

theorem apart_of_free
    (free : ∀ m ∈ sim.memories, ∀ p ∈ m.memory.ports, p.datR ∉ Stmt.assigned n.logic) :
    Apart (ofStmts n.logic ++ ofMemories sim.memories) := by
  refine List.pairwise_append.mpr
    ⟨apart_ofStmts _, apart_ofMemories h.memories h.wellDriven, fun p hp q hq s mine other => ?_⟩
  obtain ⟨m, hm, port, hport, outs, -⟩ := mem_ofMemories hq
  rw [outs, OrdSet.mem_singleton] at other
  subst other
  exact free m hm port hport (mem_outputs_ofStmts hp mine)

theorem apart_listed (undriven : n.ResetsUndriven) :
    Apart (ofStmts n.logic ++ ofMemories sim.memories) := by
  refine h.apart_of_free fun m hm port hport assigned => ?_
  rw [Netlist.logic, Stmt.assigned_resolved undriven] at assigned
  obtain ⟨c, hc, kind⟩ := exists_cell h.memories hm
  exact h.wellDriven.cellComb c hc _ (datR_mem_cellTargets kind hport) assigned

theorem apart (undriven : n.ResetsUndriven) : Apart sim.processes :=
  (Apart.perm h.perm).mpr (h.apart_listed undriven)

theorem scheduled (undriven : n.ResetsUndriven) : Scheduled sim.processes :=
  h.orders.scheduled (h.apart_listed undriven)

theorem ready : Ready (Driven sim.processes) (fun _ => False) sim.processes :=
  h.orders.ready

end Loads

end Simulator

end Gateware
