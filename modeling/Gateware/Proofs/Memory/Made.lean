import Gateware.Proofs.Memory.Range

/-!
# Memories as they are made

A memory starts out without words and ports, gets its first words and then one port after the other.
So its words fit it and every port has signals of its own, and when a netlist is loaded nothing but
the memory drives what its ports show.
-/
namespace Gateware

namespace Memory

/-- Memories made with signals of a supply, up to where the supply is now. -/
inductive Made : Memory → Supply → Prop
  | new (name : String) (width depth : Nat) (u : Supply) : Made { name, width, depth } u
  | withInit {m : Memory} {u : Supply} (init : List Int) (made : Made m u) :
    Made (m.withInit init) u
  | addPort {m next : Memory} {u after : Supply} {spec : PortSpec} {port : Port}
    (added : (m.addPort spec).run.run u = (.ok (port, next), after)) (made : Made m u) :
    Made next after
  | later {m : Memory} {u after : Supply} (more : u.nextSignal ≤ after.nextSignal)
    (made : Made m u) : Made m after

/-- Add ports one after the other. -/
def addPorts (m : Memory) : List PortSpec → Build Memory
  | [] => pure m
  | spec :: specs => do
    let (_, next) ← m.addPort spec
    next.addPorts specs

theorem Made.addPorts {m next : Memory} {u after : Supply} {specs : List PortSpec}
    (made : Made m u) (added : (m.addPorts specs).run.run u = (.ok next, after)) :
    Made next after := by
  induction specs generalizing m u with
  | nil =>
    cases added
    exact made
  | cons spec specs ih =>
    rw [Memory.addPorts, run_bind] at added
    rcases first : (m.addPort spec).run.run u with ⟨e | ⟨port, mid⟩, v⟩
    · rw [first] at added
      cases added
    · rw [first] at added
      exact ih (.addPort first made) added

/-- A port that can be added fits the memory. -/
theorem fits_freshPort {m : Memory} {spec : PortSpec} (free : m.portFault? spec = none)
    (u : Supply) : ((m.freshPort spec).run u).1.Fits m.width := by
  have fills : spec.write = true → spec.granularity = 0 ∨ m.width % spec.granularity = 0 := by
    intro writes
    rw [portFault?] at free
    split at free
    · cases free
    · split at free
      · cases free
      · rename_i none
        rw [Decidable.or_iff_not_imp_left]
        intro some
        exact Decidable.not_not.mp fun rest => none ⟨writes, some, rest⟩
  obtain ⟨name, write, asyncRead, readEnable, mode, granularity, domain⟩ := spec
  cases write with
  | false => cases readEnable <;> exact ⟨rfl, nofun, nofun, nofun⟩
  | true =>
    cases readEnable <;>
      exact ⟨rfl, fun w hw => Option.some.inj hw ▸ rfl, fun w hw => Option.some.inj hw ▸ rfl,
        fun _ _ => fills rfl⟩

namespace Made

variable {m : Memory} {u : Supply}

theorem fits (made : Made m u) : ∀ p ∈ m.ports, p.Fits m.width := by
  induction made with
  | new => simp
  | withInit _ _ ih => exact ih
  | @addPort m next u after spec port added _ ih =>
    obtain ⟨free, rfl, rfl⟩ := addPort_ok added
    intro p hp
    rcases List.mem_append.mp hp with old | new
    · exact ih p old
    · rw [List.mem_singleton.mp new]
      exact fits_freshPort free _
  | later _ _ ih => exact ih

theorem init (made : Made m u) :
    m.init.length ≤ m.depth ∧ ∀ v ∈ m.init, ∃ w : Nat, v = w ∧ w < 2 ^ m.width := by
  induction made with
  | new => exact ⟨Nat.zero_le _, by simp⟩
  | @withInit m u init _ ih =>
    refine ⟨?_, fun v hv => ?_⟩
    · simp only [Memory.withInit, List.length_map, List.length_take]
      exact Nat.min_le_left ..
    · obtain ⟨x, -, rfl⟩ := List.mem_map.mp hv
      exact ⟨toBits x m.width, rfl, toBits_lt x m.width⟩
  | addPort added _ ih =>
    obtain ⟨-, -, rfl⟩ := addPort_ok added
    exact ih
  | later _ _ ih => exact ih

theorem read_initial (made : Made m u) (a : Nat) :
    ((MemoryState.initial m).read a : Int) = m.init[a]?.getD 0 := by
  obtain ⟨length, range⟩ := made.init
  rw [MemoryState.read_initial length]
  cases given : m.init[a]? with
  | none => rfl
  | some v =>
    obtain ⟨w, rfl, -⟩ := range v (List.mem_of_getElem? given)
    rfl

/-- A memory starts at its size. -/
theorem regular (made : Made m u) : (MemoryState.initial m).Regular := by
  refine ⟨⟨MemoryState.size_initial m, fun adr => ?_⟩, made.fits⟩
  by_cases outside : adr < 0
  · rw [MemoryState.read_outside _ (.inl outside)]
    exact Nat.two_pow_pos _
  · obtain ⟨a, rfl⟩ := Int.eq_ofNat_of_zero_le (Int.not_lt.mp outside)
    rw [← Int.ofNat_lt, made.read_initial]
    cases given : m.init[a]? with
    | none => exact Int.natCast_pos.mpr (Nat.two_pow_pos _)
    | some v =>
      obtain ⟨w, rfl, small⟩ := made.init.2 v (List.mem_of_getElem? given)
      exact Int.ofNat_lt.mpr small

end Made

end Memory

/-- All memories of a netlist are made of ports that were added to them. -/
def Netlist.MemoriesMade (n : Netlist) : Prop := ∀ m ∈ n.memories, ∃ u, m.Made u

/-- What is assigned to can be assigned to with references resolved: the resets are there. -/
def Netlist.ResetsExist (n : Netlist) : Prop :=
  ∀ t ∈ Stmt.targetsOf n.stmts, (t.resolved n.domains).isTarget = true

instance (n : Netlist) : Decidable n.ResetsExist :=
  inferInstanceAs (Decidable (∀ t ∈ Stmt.targetsOf n.stmts, (t.resolved n.domains).isTarget = true))

theorem Netlist.mem_stmts_of_comb (n : Netlist) : ∀ s ∈ n.comb, s ∈ n.stmts :=
  fun _ => List.mem_append_left _

theorem Netlist.mem_stmts_of_entry {n : Netlist} {domain : String} {ss : List Stmt}
    (entry : (domain, ss) ∈ n.sync.entries) : ∀ s ∈ ss, s ∈ n.stmts := fun _ hs =>
  List.mem_append_right _ (List.mem_flatten.mpr ⟨ss, List.mem_map.mpr ⟨_, entry, rfl⟩, hs⟩)

namespace Simulator

open Process

theorem memoriesOf_eq {n : Netlist} {ms : List MemoryState} (h : memoriesOf n = .ok ms) :
    ms = n.memories.map .initial := by
  have cells := mapM_ok_iff.mp h
  rw [Netlist.memories]
  generalize n.cells.values = cs at cells
  clear h
  induction cells with
  | nil => rfl
  | @cons c m cs ms given _ ih =>
    cases kind : c.kind with
    | memory mem =>
      rw [kind] at given
      cases given
      rw [List.filterMap_cons_some (by rw [kind]), List.map_cons, ih]
    | _ =>
      rw [kind] at given
      cases given

namespace Loads

variable {n : Netlist} {sim : Simulator} (h : Loads n sim)

include h

theorem memories_eq : sim.memories.map (·.memory) = n.memories := by
  rw [memoriesOf_eq h.memories, List.map_map]
  exact List.map_id _

/-- A simulation starts with all values in range. -/
theorem inRange (made : n.MemoriesMade) : sim.InRange := by
  refine ⟨fun m hm => ?_, fun q hq => ?_, ?_⟩
  · rw [memoriesOf_eq h.memories] at hm
    obtain ⟨memory, listed, rfl⟩ := List.mem_map.mp hm
    obtain ⟨u, made⟩ := made memory listed
    exact made.regular
  · rcases List.mem_append.mp (h.perm.mem_iff.mp hq) with logic | memory
    · obtain ⟨body, rfl, -⟩ := mem_ofStmts logic
      trivial
    · exact readsFrom_ofMemories memory
  · rw [h.state]
    exact SimState.ranged_ofKeys _

/-- What a domain's registers are loaded by: statements of the netlist with references resolved. -/
theorem sync_getD (domain : String) : sim.sync.getD domain [] = [] ∨
    ∃ ss, (domain, ss) ∈ n.sync.entries ∧
      sim.sync.getD domain [] = Stmt.mapExprsOf (Expr.resolved n.domains) ss := by
  rw [OrdMap.getD]
  cases found : sim.sync.get? domain with
  | none => exact .inl rfl
  | some ss =>
    rw [OrdMap.get?_eq_some_iff, h.sync] at found
    obtain ⟨⟨name, old⟩, mem, same⟩ := List.mem_map.mp found
    cases same
    exact .inr ⟨old, mem, rfl⟩

/-- No statement assigns what a port shows. -/
theorem datR_free (apart : n.ResetsApart) {m : Memory} (hm : m ∈ n.memories) {p : Memory.Port}
    (hp : p ∈ m.ports) : p.datR ∉ Stmt.assigned n.logic ∧
      ∀ domain, p.datR ∉ Stmt.assigned (sim.sync.getD domain []) := by
  obtain ⟨c, hc, kind⟩ := List.mem_filterMap.mp hm
  have kind : c.kind = .memory m := by
    split at kind
    next same => rw [same, Option.some.inj kind]
    next => cases kind
  have cell := datR_mem_cellTargets kind hp
  constructor
  · intro assigned
    rcases Stmt.mem_assigned_resolved assigned with plain | ⟨t, ht, byRef, drives⟩
    · exact h.wellDriven.cellComb c hc _ cell plain
    · have target := mem_targetsOf_of_subset n.mem_stmts_of_comb ht
      exact apart t target byRef m hm p hp drives
  · intro domain assigned
    rcases h.sync_getD domain with none | ⟨ss, entry, same⟩
    · rw [none] at assigned
      simp [Stmt.assigned, Stmt.targetsOf] at assigned
    · rw [same] at assigned
      rcases Stmt.mem_assigned_resolved assigned with plain | ⟨t, ht, byRef, drives⟩
      · exact h.wellDriven.cellSync c hc _ cell _ entry plain
      · have target := mem_targetsOf_of_subset (Netlist.mem_stmts_of_entry entry) ht
        exact apart t target byRef m hm p hp drives

/-- Ports that show the same signal are the same, whatever their memories hold by now. -/
theorem port_unique {ms : List MemoryState}
    (memories : ms.map (·.memory) = n.memories) {m m' : MemoryState} (hm : m ∈ ms) (hm' : m' ∈ ms)
    {p p' : Memory.Port} (hp : p ∈ m.memory.ports) (hp' : p' ∈ m'.memory.ports)
    (same : p.datR = p'.datR) : m = m' ∧ p = p' := by
  let R (x y : Memory) : Prop := ∀ p ∈ x.ports, ∀ p' ∈ y.ports, p.datR ≠ p'.datR
  have between : ms.Pairwise fun x y => R x.memory y.memory := by
    have first : (sim.memories.map (·.memory)).Pairwise R :=
      List.pairwise_map.mpr (datR_pairwise h.memories h.wellDriven)
    rw [h.memories_eq, ← memories] at first
    exact List.pairwise_map.mp first
  have symm : Std.Symm fun x y : MemoryState => R x.memory y.memory :=
    ⟨fun x y apart p hp p' hp' same => apart p' hp' p hp same.symm⟩
  have one : m = m' := by
    by_contra differ
    exact between.forall hm hm' differ p hp p' hp' same
  subst one
  exact ⟨rfl, List.inj_on_of_nodup_map m.memory.own.distinct hp hp' same⟩

end Loads

end Simulator

end Gateware
