import Gateware.Proofs.Progress

/-!
# Memory ports

A memory with its ports is an array. On a clock edge the ports of the domain write in order, from
values sampled before it. Ports that read on edges show the word from before the edge, or keep what
they show; those that follow an address show the word that is there now, whichever domain wrote it.

## Main results

* `ports_implement_arrays`: the memories of every simulation are the arrays that its clock edges
  have written, and each step that succeeds shows and writes words as the ports say.
* `resets_defeat_ports`: statements that assign a reset by the name of its domain can keep an edge
  from writing, or a port from showing its word.

## Proof strategy

`Tracked` says what a `Trace` of steps keeps, one lemma for each kind of step. What ports show comes
from the state in which settling ends, where each read of a memory leaves things as they are.
-/
namespace Gateware

/-- The clock edges so far, the latest first, each with the values sampled for it. -/
abbrev History := List (String × Valuation)

namespace Memory.Port

/-- The address that a port took in last, zero before the first. -/
def lastAddress (p : Port) : History → Int
  | [] => 0
  | (domain, ρ) :: earlier =>
    if p.domain = domain ∧ p.takes ρ then ρ p.adr else p.lastAddress earlier

/-- What the port shows changes on clock edges only. -/
def holds (p : Port) : Bool := !p.asyncRead && p.mode ≠ .writeFirst

theorem holds_iff {p : Port} : p.holds = true ↔ p.asyncRead = false ∧ p.mode ≠ .writeFirst := by
  simp [holds]

end Memory.Port

namespace MemoryState

/-! ### Following an address -/

theorem sample_eq_zero_iff {ρ : Valuation} {s : Signal} (ranged : s.shape.wrap (ρ s) = ρ s)
    {w : Nat} (shape : s.shape = .unsigned w) : sample ρ s = 0 ↔ ρ s = 0 := by
  have width : s.width = w := congrArg Shape.width shape
  have bits : (sample ρ s : Int) = ρ s := by
    rw [shape, Shape.wrap_unsigned] at ranged
    rw [sample, width]
    exact ranged
  rw [← bits]
  exact Int.natCast_eq_zero.symm

/-- With values in range, a clocked port reads if it takes a word in. -/
theorem reads_eq {ρ : Valuation} (ranged : ∀ s : Signal, s.shape.wrap (ρ s) = ρ s)
    {p : Memory.Port} {width : Nat} (fits : p.Fits width) :
    reads ρ p = (!p.asyncRead && p.takes ρ) := by
  have writing : (p.write.any fun w => ρ w.enable ≠ 0) =
      p.write.any fun w => sample ρ w.enable ≠ 0 := by
    cases side : p.write with
    | none => rfl
    | some w =>
      have zero := sample_eq_zero_iff (ranged w.enable) (fits.enable w side)
      simp [zero]
  simp only [reads, Memory.Port.takes, writing, Bool.and_assoc]

/-- Every port that follows an address has the one that it took in last. -/
def Follows (m : MemoryState) (history : History) : Prop :=
  ∀ k p, m.memory.ports[k]? = some p → followsAddress p →
    m.latched.get? k = some (p.lastAddress history)

theorem follows_initial (m : Memory) : (initial m).Follows [] :=
  fun _ _ place follows => latched_initial place follows

theorem Follows.edge {m : MemoryState} {history : History} (h : m.Follows history)
    (regular : m.Regular) {ρ : Valuation} (ranged : ∀ s : Signal, s.shape.wrap (ρ s) = ρ s)
    (domain : String) : (m.edge ρ domain).1.Follows ((domain, ρ) :: history) := by
  intro k p place follows
  rw [(edge_written ρ domain regular).1.memory] at place
  have fits := regular.ports p (List.mem_of_getElem? place)
  obtain ⟨clocked, mode⟩ := followsAddress_iff.mp follows
  rw [latched_edge ρ domain place, reads_eq ranged fits, Memory.Port.lastAddress, clocked, mode]
  simp only [Bool.not_false, Bool.true_and, and_true]
  split
  · rfl
  · exact h k p place follows

theorem Follows.followed {m : MemoryState} {history : History} (h : m.Follows history) {k : Nat}
    {p : Memory.Port} (place : m.memory.ports[k]? = some p) (follows : followsAddress p) :
    m.followed k = m.read (p.lastAddress history) := by
  rw [MemoryState.followed, h k p place follows]

end MemoryState

namespace Simulator

open Process

/-! ### Runs -/

/-- The edge that a tick makes, unless it fails before. -/
def sampled (sim : Simulator) (domain : String) : History :=
  if sim.knows domain then
    match settle.run.run sim with
    | (.ok _, mid) => if (mid.clockEdge domain).isOk then [(domain, mid.peek)] else []
    | (.error _, _) => []
  else []

theorem memories_settle {sim after : Simulator} (h : settle.run.run sim = (.ok (), after)) :
    after.memories = sim.memories := by
  rw [(run_settle_ok h).2]

/-- A sequence of pokes and ticks with the edges that it makes. What a failed step has done stays
done. -/
inductive Trace (n : Netlist) : History → Simulator → Prop
  | start {sim : Simulator} (started : Starts n sim) : Trace n [] sim
  | poke {history : History} {sim : Simulator} (s : Signal) (v : Int)
    (before : Trace n history sim) : Trace n history (sim.poke s v)
  | settle {history : History} {sim : Simulator} (before : Trace n history sim) :
    Trace n history (settle.run.run sim).2
  | tick {history : History} {sim : Simulator} (domain : String) (before : Trace n history sim) :
    Trace n (sim.sampled domain ++ history) ((tick domain).run.run sim).2

/-- How far a tick gets: it fails before its edge, or it settles once more after it. -/
theorem tick_cases (sim : Simulator) (domain : String) :
    (∃ e, sim.sampled domain = [] ∧ ((tick domain).run.run sim = (.error e, sim) ∨
      (tick domain).run.run sim = (.error e, (settle.run.run sim).2))) ∨
    ∃ mid next, settle.run.run sim = (.ok (), mid) ∧ mid.clockEdge domain = .ok next ∧
      sim.sampled domain = [(domain, mid.peek)] ∧
      (tick domain).run.run sim = settle.run.run next := by
  rw [run_tick, sampled]
  cases sim.knows domain with
  | false => exact .inl ⟨_, rfl, .inl rfl⟩
  | true =>
    simp only [if_true]
    rcases settle.run.run sim with ⟨e | u, mid⟩
    · exact .inl ⟨e, rfl, .inr rfl⟩
    · dsimp only
      cases edge : mid.clockEdge domain with
      | error e => exact .inl ⟨e, rfl, .inr rfl⟩
      | ok next => exact .inr ⟨mid, next, rfl, edge, rfl, rfl⟩

theorem tick_ok {sim after : Simulator} {domain : String}
    (h : (tick domain).run.run sim = (.ok (), after)) :
    ∃ mid next, settle.run.run sim = (.ok (), mid) ∧ mid.clockEdge domain = .ok next ∧
      settle.run.run next = (.ok (), after) := by
  rcases tick_cases sim domain with ⟨e, -, failed | failed⟩ | ⟨mid, next, first, edge, -, last⟩
  · rw [h] at failed
    cases failed
  · rw [h] at failed
    cases failed
  · exact ⟨mid, next, first, edge, last.symm.trans h⟩

/-- What is known of a simulation along a run. -/
structure Tracked (n : Netlist) (history : History) (sim : Simulator) : Prop where
  design : ∃ first, Loads n first ∧ SameDesign sim first
  memories : sim.memories.map (·.memory) = n.memories
  inRange : sim.InRange
  follows : ∀ m ∈ sim.memories, m.Follows history
  unwritten : history = [] → sim.memories = n.memories.map .initial

namespace Tracked

variable {n : Netlist} {history : History} {sim : Simulator}

theorem load (made : n.MemoriesMade) {first : Simulator} (loads : Loads n first) :
    Tracked n [] first := by
  have initial := memoriesOf_eq loads.memories
  refine ⟨⟨first, loads, rfl, rfl, rfl⟩, loads.memories_eq, loads.inRange made, fun m hm => ?_,
    fun _ => initial⟩
  rw [initial] at hm
  obtain ⟨m, -, rfl⟩ := List.mem_map.mp hm
  exact MemoryState.follows_initial m

variable (h : Tracked n history sim)

include h

theorem after_poke (s : Signal) (v : Int) : Tracked n history (sim.poke s v) := by
  obtain ⟨first, loads, same⟩ := h.design
  exact ⟨⟨first, loads, same.processes, same.sync, same.domains⟩, h.memories, h.inRange.poke s v,
    h.follows, h.unwritten⟩

theorem after_settle : Tracked n history (settle.run.run sim).2 := by
  obtain ⟨first, loads, same⟩ := h.design
  refine ⟨⟨first, loads, (sameDesign_settle sim).trans same⟩, ?_, h.inRange.settle, ?_, ?_⟩ <;>
    rw [run_settle]
  · exact h.memories
  · exact h.follows
  · exact h.unwritten

theorem after_edge {domain : String} {next : Simulator} (edge : sim.clockEdge domain = .ok next) :
    Tracked n ((domain, sim.peek) :: history) next := by
  obtain ⟨first, loads, same⟩ := h.design
  refine ⟨⟨first, loads, (sameDesign_clockEdge edge).trans same⟩,
    (map_memory_clockEdge edge).trans h.memories, h.inRange.clockEdge edge, fun m hm => ?_, nofun⟩
  rw [memories_clockEdge edge] at hm
  obtain ⟨old, there, rfl⟩ := List.mem_map.mp hm
  exact (h.follows old there).edge (h.inRange.memories old there) h.inRange.state.value domain

theorem after_tick (domain : String) :
    Tracked n (sim.sampled domain ++ history) ((tick domain).run.run sim).2 := by
  rcases tick_cases sim domain with ⟨e, none, stays | settles⟩ | ⟨mid, next, first, edge, one, last⟩
  · rw [none, stays]
    exact h
  · rw [none, settles]
    exact h.after_settle
  · have settled := h.after_settle
    rw [first] at settled
    rw [one, last]
    exact (settled.after_edge edge).after_settle

end Tracked

theorem Trace.tracked {n : Netlist} (made : n.MemoriesMade) {history : History} {sim : Simulator}
    (trace : Trace n history sim) : Tracked n history sim := by
  induction trace with
  | start started =>
    obtain ⟨first, loads, -, rfl⟩ := started
    have settled := (Tracked.load made loads).after_settle
    rwa [run_settle] at settled
  | poke s v _ ih => exact ih.after_poke s v
  | settle _ ih => exact ih.after_settle
  | tick domain _ ih => exact ih.after_tick domain

/-! ### Settled ports -/

/-- A read of a memory shows its word in the data of its port. -/
theorem Solved.value_eq {ms : List MemoryState} {ps : List Process} {σ : SimState}
    (solved : Solved ms ps σ) {q : Process} (hq : q ∈ ps) {s : Signal} {v : Int}
    (given : results ms σ q = .ok (.ofList [(s, v)])) : σ.value s = v := by
  obtain ⟨w, done, fixed⟩ := solved q hq
  rw [given] at done
  cases done
  refine SimState.value_of_get? ?_
  rw [← fixed, OrdMap.get?_override, get?_ofList_singleton, if_pos rfl]
  rfl

/-- What ports that need no edge show: the word at the address they have now, or at the one that
they took in last. -/
structure Shown (history : History) (sim : Simulator) : Prop where
  current : ∀ m ∈ sim.memories, ∀ p ∈ m.memory.ports, p.asyncRead = true →
    sim.peek p.datR = m.read (sim.peek p.adr)
  followed : ∀ m ∈ sim.memories, ∀ p ∈ m.memory.ports, MemoryState.followsAddress p = true →
    sim.peek p.datR = m.read (p.lastAddress history)

/-- What a clock edge does to memories and to the ports that hold what they show, with the values
sampled for it. -/
structure Performs (ρ : Valuation) (domain : String) (before after : Simulator) : Prop where
  words : List.Forall₂ (MemoryState.Written ρ domain) before.memories after.memories
  held : ∀ m ∈ before.memories, ∀ p ∈ m.memory.ports, p.holds = true →
    after.peek p.datR = if p.domain = domain ∧ p.takes ρ then (m.read (ρ p.adr) : Int)
      else before.peek p.datR

/-- On an edge a domain loads nothing but its registers. -/
theorem loaded_other {sim : Simulator} {domain : String} {writes : SimState}
    (h : sim.loaded domain = .ok writes) {s : Signal}
    (free : s ∉ Stmt.assigned (sim.sync.getD domain [])) : writes.get? s = none := by
  obtain ⟨f, ran, given⟩ := get?_loaded h
  have run := Frame.execAll_stores (sim.sync.getD domain []) { state := sim.state, clocked := true }
  rw [ran] at run
  rw [given, if_neg fun reset => free (OrdSet.mem_toList.mp (List.mem_filter.mp reset.2).1)]
  exact run.writes_eq fun driven => free (Stmt.drivenBy_iff.mp driven)

namespace Tracked

variable {n : Netlist} {history : History} {sim : Simulator} (h : Tracked n history sim)
  (apart : n.ResetsApart)

include h apart

theorem solved {after : Simulator} (settles : settle.run.run sim = (.ok (), after)) :
    Solved after.memories after.processes after.state := by
  obtain ⟨first, loads, same⟩ := h.design
  have sound := loads.sound
  have free : ∀ m ∈ first.memories, ∀ p ∈ m.memory.ports, p.datR ∉ Stmt.assigned n.logic := by
    intro m hm p hp
    exact (loads.datR_free apart (loads.memories_eq ▸ List.mem_map_of_mem hm) hp).1
  have listed := loads.apart_of_free free
  have orderly : sim.Orderly := by
    constructor <;> rw [same.processes]
    · exact sound
    · exact loads.ready
  obtain ⟨ended, stays⟩ := run_settle_ok settles
  have logic := orderly.pass_settled ended
  rw [same.processes] at logic
  rw [stays]
  dsimp only
  rw [same.processes]
  exact pass_solved sound ((Apart.perm loads.perm).mpr listed)
    (loads.orders.scheduled listed) logic

theorem shown {after : Simulator} (settles : settle.run.run sim = (.ok (), after)) :
    after.Shown history := by
  obtain ⟨first, loads, same⟩ := h.design
  have solved := h.solved apart settles
  obtain ⟨-, stays⟩ := run_settle_ok settles
  -- Reads of memories stay those that were loaded.
  have listed : ∀ q, q ∈ ofMemories after.memories → q ∈ after.processes := by
    intro q hq
    rw [mem_ofMemories_iff, stays, h.memories, ← loads.memories_eq, ← mem_ofMemories_iff] at hq
    rw [stays]
    dsimp only
    rw [same.processes]
    exact loads.perm.mem_iff.mpr (List.mem_append_right _ hq)
  have follows : ∀ m ∈ after.memories, m.Follows history := by
    rw [stays]
    exact h.follows
  have numbered : ∀ m ∈ after.memories, ∀ p ∈ m.memory.ports, ∃ i k : Nat,
      after.memories[i]? = some m ∧ (after.memories.map (·.memory))[i]? = some m.memory ∧
      m.memory.ports[k]? = some p := by
    intro m hm p hp
    obtain ⟨i, at_i⟩ := List.mem_iff_getElem?.mp hm
    obtain ⟨k, at_k⟩ := List.mem_iff_getElem?.mp hp
    exact ⟨i, k, at_i, by simp [at_i], at_k⟩
  constructor
  · intro m hm p hp async
    obtain ⟨i, k, at_i, memory, at_k⟩ := numbered m hm p hp
    apply solved.value_eq
    · exact listed _ (mem_ofMemories_iff.mpr ⟨i, m.memory, k, p, memory, at_k, .inl ⟨async, rfl⟩⟩)
    · rw [results, at_i]
      rfl
  · intro m hm p hp follow
    obtain ⟨i, k, at_i, memory, at_k⟩ := numbered m hm p hp
    apply solved.value_eq
    · exact listed _ (mem_ofMemories_iff.mpr ⟨i, m.memory, k, p, memory, at_k, .inr ⟨follow, rfl⟩⟩)
    · rw [results, at_i, ← (follows m hm).followed at_k follow]
      rfl

/-- Neither logic nor resets touch what a port holds. -/
theorem datR_untouched {m : MemoryState} (hm : m ∈ sim.memories) {p : Memory.Port}
    (hp : p ∈ m.memory.ports) (holds : p.holds = true) :
    ¬ Driven sim.processes p.datR ∧
      ∀ domain, p.datR ∉ Stmt.assigned (sim.sync.getD domain []) := by
  obtain ⟨first, loads, same⟩ := h.design
  obtain ⟨comb, sync⟩ := loads.datR_free apart (h.memories ▸ List.mem_map_of_mem hm) hp
  rw [← same.sync] at sync
  refine ⟨?_, sync⟩
  rintro ⟨q, hq, drives⟩
  rw [same.processes, loads.perm.mem_iff] at hq
  rcases List.mem_append.mp hq with logic | memory
  · exact comb (mem_outputs_ofStmts logic drives)
  · rw [mem_ofMemories_iff, loads.memories_eq, ← h.memories] at memory
    obtain ⟨i, memory, k, p', at_i, at_k, kind⟩ := memory
    rw [List.getElem?_map, Option.map_eq_some_iff] at at_i
    obtain ⟨m', at_i, rfl⟩ := at_i
    have data : p.datR = p'.datR := by
      rcases kind with ⟨-, rfl⟩ | ⟨-, rfl⟩ <;> exact OrdSet.mem_singleton.mp drives
    obtain ⟨-, rfl⟩ := loads.port_unique h.memories hm
      (List.mem_of_getElem? at_i) hp (List.mem_of_getElem? at_k) data
    -- A port that holds what it shows has no read of its own.
    obtain ⟨clocked, mode⟩ := Memory.Port.holds_iff.mp holds
    rcases kind with ⟨async, -⟩ | ⟨follows, -⟩
    · rw [clocked] at async
      cases async
    · exact mode (MemoryState.followsAddress_iff.mp follows).2

theorem holds_settle {after : Simulator} (settles : settle.run.run sim = (.ok (), after))
    {m : MemoryState} (hm : m ∈ sim.memories) {p : Memory.Port} (hp : p ∈ m.memory.ports)
    (holds : p.holds = true) : after.peek p.datR = sim.peek p.datR := by
  obtain ⟨first, loads, same⟩ := h.design
  obtain ⟨undriven, sync⟩ := h.datR_untouched apart hm hp holds
  have sound : ∀ q ∈ sim.processes, q.Sound := by
    rw [same.processes]
    exact loads.sound
  refine value_congr (settled_keeps (fun q hq => (sound q hq).owns) undriven
    (run_settle_ok settles).1 fun d _ hs => ?_)
  exact absurd (OrdSet.mem_toList.mp (List.mem_filter.mp hs).1) (sync d.name)

/-- On an edge a port that takes a word in shows the one from before, and others keep what they
show. -/
theorem holds_edge {domain : String} {next : Simulator} (edge : sim.clockEdge domain = .ok next)
    {m : MemoryState} (hm : m ∈ sim.memories) {p : Memory.Port} (hp : p ∈ m.memory.ports)
    (holds : p.holds = true) :
    next.peek p.datR = if p.domain = domain ∧ p.takes sim.peek then
      (m.read (sim.peek p.adr) : Int) else sim.peek p.datR := by
  obtain ⟨first, loads, -⟩ := h.design
  obtain ⟨-, sync⟩ := h.datR_untouched apart hm hp holds
  obtain ⟨writes, loaded, same⟩ := bind_eq_ok.mp edge
  cases same
  obtain ⟨clocked, mode⟩ := Memory.Port.holds_iff.mp holds
  have reads : MemoryState.reads sim.peek p = p.takes sim.peek := by
    have eq := MemoryState.reads_eq h.inRange.state.value ((h.inRange.memories m hm).ports p hp)
    rw [clocked] at eq
    exact eq
  -- All data that the edge gives to this signal comes from this port.
  have alone : ∀ e ∈ (sim.memories.map fun m => m.edge sim.peek domain).flatMap (·.2),
      e.1 = p.datR → (p.domain = domain ∧ p.takes sim.peek) ∧
        e.2 = (m.read (sim.peek p.adr) : Int) := by
    intro e he data
    obtain ⟨given, hgiven, he⟩ := List.mem_flatMap.mp he
    obtain ⟨m', hm', rfl⟩ := List.mem_map.mp hgiven
    obtain ⟨p', hp', own, reading, -, rfl⟩ := (MemoryState.mem_edge_data sim.peek domain).mp he
    obtain ⟨rfl, rfl⟩ := loads.port_unique h.memories hm' hm hp' hp data
    exact ⟨⟨own, reads ▸ reading⟩, rfl⟩
  by_cases taken : p.domain = domain ∧ p.takes sim.peek
  · rw [if_pos taken]
    refine SimState.value_of_get? (OrdMap.get?_foldl_insert_of_eq
      (fun e he data => (alone e he data).2)
      (.inl ⟨(p.datR, (m.read (sim.peek p.adr) : Int)), ?_, rfl⟩))
    exact List.mem_flatMap.mpr ⟨_, List.mem_map_of_mem hm, (MemoryState.mem_edge_data _ _).mpr
      ⟨p, hp, taken.1, by rw [reads]; exact taken.2, mode, rfl⟩⟩
  · rw [if_neg taken]
    refine value_congr ((OrdMap.get?_foldl_insert_of_ne
      (fun e he data => taken (alone e he data).1) _).trans ?_)
    rw [OrdMap.get?_override, loaded_other loaded (sync domain)]
    rfl

theorem performs {domain : String} {mid next after : Simulator}
    (first : settle.run.run sim = (.ok (), mid)) (edge : mid.clockEdge domain = .ok next)
    (last : settle.run.run next = (.ok (), after)) :
    Performs mid.peek domain sim after ∧ after.Shown ((domain, mid.peek) :: history) := by
  have settled : Tracked n history mid := by
    have := h.after_settle
    rwa [first] at this
  have edged := settled.after_edge edge
  have kept := memories_settle first
  have words : next.memories = sim.memories.map fun m => (m.edge mid.peek domain).1 := by
    rw [memories_clockEdge edge, kept]
  refine ⟨⟨?_, fun m hm p hp holds => ?_⟩, edged.shown apart last⟩
  · rw [memories_settle last, words, List.forall₂_map_right_iff, List.forall₂_same]
    exact fun m hm => (MemoryState.edge_written mid.peek domain (h.inRange.memories m hm)).1
  · have written := (MemoryState.edge_written mid.peek domain (h.inRange.memories m hm)).1
    have there : (m.edge mid.peek domain).1 ∈ next.memories := by
      rw [words]
      exact List.mem_map_of_mem hm
    rw [edged.holds_settle apart last there (written.memory ▸ hp) holds,
      settled.holds_edge apart edge (kept ▸ hm) hp holds,
      h.holds_settle apart first hm hp holds]

end Tracked

/-- A tick of a domain that is known ends, if every reset that is assigned to exists. -/
theorem Tracked.tick_ends {n : Netlist} {history : History} {sim : Simulator}
    (h : Tracked n history sim) (exist : n.ResetsExist) {domain : String}
    (known : sim.knows domain = true) :
    ∃ after, (tick domain).run.run sim = (.ok (), after) := by
  obtain ⟨first, loads, same⟩ := h.design
  exact ⟨_, eq_ok_of_fst ((same.tick_ends loads known).eq_ok exist.present)⟩

/-! ### Arrays -/

/-- Memories with ports are arrays. In every run their words are as many as they are deep, zero
outside, and the given ones before the first edge. Settling leaves the words alone; after it, ports
that need no edge show the word at their address, or at the one they took in last. A tick puts into
every word what the ports of its domain write there, from the values that were settled before the
edge, and the other ports show the word from before it or keep what they show. Ticks of known
domains succeed if every reset that is assigned to exists and no width overflows, and other ticks do
nothing. -/
theorem ports_implement_arrays (n : Netlist) (made : n.MemoriesMade) (apart : n.ResetsApart)
    (history : History) (sim : Simulator) (trace : Trace n history sim) :
    (sim.memories.map (·.memory) = n.memories ∧ ∀ m ∈ sim.memories,
      m.words.size = m.memory.depth ∧ (∀ adr, m.read adr < 2 ^ m.memory.width) ∧
      (∀ adr : Int, adr < 0 ∨ m.memory.depth ≤ adr → m.read adr = 0) ∧
      (history = [] → ∀ a : Nat, (m.read a : Int) = m.memory.init[a]?.getD 0)) ∧
    (Starts n sim → sim.Shown []) ∧
    (∀ after, settle.run.run sim = (.ok (), after) →
      after.memories = sim.memories ∧ after.Shown history ∧
      ∀ m ∈ sim.memories, ∀ p ∈ m.memory.ports, p.holds = true →
        after.peek p.datR = sim.peek p.datR) ∧
    (∀ domain after, (tick domain).run.run sim = (.ok (), after) →
      ∃ mid, settle.run.run sim = (.ok (), mid) ∧ Performs mid.peek domain sim after ∧
        after.Shown ((domain, mid.peek) :: history)) ∧
    (∀ domain, sim.knows domain = false →
      (tick domain).run.run sim = (.error (.unknownDomain domain), sim)) ∧
    (n.ResetsExist → n.Countable → ∀ domain, sim.knows domain = true →
      ∃ after, (tick domain).run.run sim = (.ok (), after)) := by
  have tracked := trace.tracked made
  refine ⟨⟨tracked.memories, fun m hm => ?_⟩, fun started => ?_, fun after settles => ?_,
    fun domain after ticks => ?_, fun domain unknown => ?_,
    fun exist _ domain known => tracked.tick_ends exist known⟩
  · have regular := tracked.inRange.memories m hm
    refine ⟨regular.size, regular.word, fun adr outside => ?_, fun none a => ?_⟩
    · exact m.read_outside (regular.size ▸ outside)
    rw [tracked.unwritten none] at hm
    obtain ⟨memory, listed, rfl⟩ := List.mem_map.mp hm
    obtain ⟨u, made⟩ := made memory listed
    exact made.read_initial a
  · obtain ⟨first, loads, ended, rfl⟩ := started
    refine (Tracked.load made loads).shown apart ?_
    rw [run_settle, ended]
  · exact ⟨memories_settle settles, tracked.shown apart settles,
      fun m hm p hp => tracked.holds_settle apart settles hm hp⟩
  · obtain ⟨mid, next, first, edge, last⟩ := tick_ok ticks
    exact ⟨mid, first, tracked.performs apart first edge last⟩
  · rw [run_tick, unknown]
    rfl

/-! ### A buffer between two domains -/

/-- A memory with ports, put together from nothing. -/
abbrev assembled (m : Memory) (specs : List Memory.PortSpec) : Except Fault Memory × Supply :=
  (m.addPorts specs).run.run {}

/-- A memory as the only cell. -/
def holding (run : Except Fault Memory × Supply) : OrdMap CellId Cell :=
  .ofList (run.1.toOption.toList.map fun m => (⟨0⟩, ⟨⟨0⟩, .memory m⟩))

theorem memoriesMade_of_holding {n : Netlist} {name : String} {width depth : Nat} {init : List Int}
    {specs : List Memory.PortSpec}
    (only : n.cells = holding (assembled (Memory.withInit { name, width, depth } init) specs)) :
    n.MemoriesMade := by
  intro m hm
  rw [Netlist.memories, only] at hm
  rcases run : assembled (Memory.withInit { name, width, depth } init) specs with ⟨e | ram, supply⟩
  · rw [run] at hm
    cases hm
  · rw [run] at hm
    obtain rfl : m = ram := List.mem_singleton.mp hm
    exact ⟨supply, .addPorts (.withInit _ (.new ..)) run⟩

open Signal (wire)

/-- Three words of two lanes. One port writes and holds what it shows meanwhile, one in another
domain follows an address, and one shows a word at any time, at the address of the one that
writes. -/
def buffer : Netlist where
  comb := [.assign (wire 7 "ram_r_adr" 2) (wire 0 "ram_w_adr" 2)]
  cells := holding (assembled (Memory.withInit { name := "ram", width := 8, depth := 3 } [1, 2]) [
    { name := "w", write := true, granularity := 4, mode := .noChange, domain := "a" },
    { name := "f", readEnable := true, mode := .writeFirst, domain := "b" },
    { name := "r", asyncRead := true }])

theorem buffer_made : buffer.MemoriesMade := memoriesMade_of_holding rfl

/-- Let the port of the second domain take in an address, then ask for a write there of one lane. -/
def writing (sim : Simulator) : Simulator :=
  let sim := sim.poke (wire 4 "ram_f_adr" 2) 1
  let sim := sim.poke (wire 6 "ram_f_re" 1) 1
  let sim := ((tick "b").run.run sim).2
  let sim := sim.poke (wire 0 "ram_w_adr" 2) 1
  let sim := sim.poke (wire 2 "ram_w_we" 2) 2
  sim.poke (wire 3 "ram_w_dat_w" 8) 0xab

theorem trace_writing {sim : Simulator} (started : start buffer = .ok sim) :
    ∃ history, Trace buffer history (writing sim) :=
  ⟨_, .poke _ _ (.poke _ _ (.poke _ _ (.tick _
    (.poke _ _ (.poke _ _ (.start (starts_of_start started)))))))⟩

/-- What the three ports show. -/
def seenWords (sim : Simulator) : Int × Int × Int :=
  (sim.peek (wire 1 "ram_w_dat_r" 8), sim.peek (wire 5 "ram_f_dat_r" 8),
    sim.peek (wire 8 "ram_r_dat_r" 8))

theorem writing_trial {sim : Simulator} (started : start buffer = .ok sim) :
    seenWords (writing sim) = (0, 2, 1) ∧ (writing sim).knows "a" = true ∧
      seenWords ((tick "a").run.run (writing sim)).2 = (0, 0xa2, 0xa2) := by
  apply forall_ok _ sim started
  decide +kernel

theorem buffer_writes_through :
    ∃ history sim after, buffer.MemoriesMade ∧ buffer.ResetsApart ∧ buffer.ResetsExist ∧
      Trace buffer history sim ∧ (tick "a").run.run sim = (.ok (), after) ∧
      (∃ mid, settle.run.run sim = (.ok (), mid) ∧ Performs mid.peek "a" sim after ∧
        after.Shown (("a", mid.peek) :: history)) ∧
      seenWords sim = (0, 2, 1) ∧ seenWords after = (0, 0xa2, 0xa2) := by
  obtain ⟨sim, started⟩ := exists_ok (by decide +kernel : (start buffer).isOk = true)
  obtain ⟨history, trace⟩ := trace_writing started
  obtain ⟨before, known, seen⟩ := writing_trial started
  have apart : buffer.ResetsApart := by decide +kernel
  have exist : buffer.ResetsExist := by decide +kernel
  obtain ⟨-, -, -, ticks, -, ends⟩ :=
    ports_implement_arrays buffer buffer_made apart history _ trace
  obtain ⟨after, done⟩ := ends exist (by decide +kernel) "a" known
  rw [done] at seen
  exact ⟨history, _, after, buffer_made, apart, exist, trace, done, ticks "a" after done, before,
    seen⟩

/-! ### Resets in the way of ports -/

/-- A port writes on the edges of a domain without a reset, which is assigned to on the same
edges. -/
def unwritten : Netlist where
  sync := .ofList [("por", [.assign (.resetOrZero "por") (wire 5 "request" 1)])]
  cells := holding (assembled (Memory.withInit { name := "ram", width := 8, depth := 4 } [])
    [{ name := "w", write := true, domain := "por" }])
  domains := [{ name := "por", clk := wire 4 "por_clk" 1, rst := none, asyncReset := false }]

/-- What a port shows at any time is the reset of a domain, which is assigned to as such. -/
def overridden : Netlist where
  comb := [.assign (.reset "sys") (wire 3 "request" 8)]
  cells := holding (assembled (Memory.withInit { name := "ram", width := 8, depth := 4 } [5])
    [{ name := "r", asyncRead := true }])
  domains := [{ name := "sys", clk := wire 2 "sys_clk" 1, rst := some (wire 1 "ram_r_dat_r" 8)
                asyncReset := false }]

/-- Both netlists are accepted. In the first one a tick of a domain in use fails, and the word that
the port was to write is not written. In the second one the port shows the request instead of its
word. -/
theorem resets_defeat_ports :
    (∃ sim failed, unwritten.MemoriesMade ∧ start unwritten = .ok sim ∧ unwritten.Uses "por" ∧
      sim.memories.map (·.read 0) = [0] ∧
      (tick "por").run.run
        ((sim.poke (wire 2 "ram_w_we" 1) 1).poke (wire 3 "ram_w_dat_w" 8) 5) =
          (.error absentReset, failed) ∧
      failed.memories.map (·.read 0) = [0]) ∧
    ∃ sim after, overridden.MemoriesMade ∧ start overridden = .ok sim ∧
      settle.run.run (sim.poke (wire 3 "request" 8) 9) = (.ok (), after) ∧
      after.memories.map (·.read 0) = [5] ∧ after.peek (wire 0 "ram_r_adr" 2) = 0 ∧
      after.peek (wire 1 "ram_r_dat_r" 8) = 9 := by
  refine ⟨?_, ?_⟩
  · obtain ⟨sim, started⟩ := exists_ok (by decide +kernel : (start unwritten).isOk = true)
    have seen : ∀ sim, start unwritten = .ok sim → sim.memories.map (·.read 0) = [0] ∧
        let ended := (tick "por").run.run
          ((sim.poke (wire 2 "ram_w_we" 1) 1).poke (wire 3 "ram_w_dat_w" 8) 5)
        ended.1 = .error absentReset ∧ ended.2.memories.map (·.read 0) = [0] :=
      forall_ok (by decide +kernel)
    obtain ⟨before, fails, kept⟩ := seen sim started
    exact ⟨sim, _, memoriesMade_of_holding rfl, started, by decide +kernel, before,
      Prod.ext fails rfl, kept⟩
  · obtain ⟨sim, started⟩ := exists_ok (by decide +kernel : (start overridden).isOk = true)
    have seen : ∀ sim, start overridden = .ok sim →
        let ended := settle.run.run (sim.poke (wire 3 "request" 8) 9)
        ended.1 = .ok () ∧ ended.2.memories.map (·.read 0) = [5] ∧
          ended.2.peek (wire 0 "ram_r_adr" 2) = 0 ∧
          ended.2.peek (wire 1 "ram_r_dat_r" 8) = 9 :=
      forall_ok (by decide +kernel)
    obtain ⟨settles, word, address, shown⟩ := seen sim started
    exact ⟨sim, _, memoriesMade_of_holding rfl, started, Prod.ext settles rfl, word, address, shown⟩

end Simulator

end Gateware
