import Gateware.Proofs.Memory.Words
import Gateware.Proofs.Stability

/-!
# Values in range

Whatever a simulation does, every signal holds a value of its shape. Values are wrapped where they
are stored, and the words of a memory fit the data of its ports.
-/
namespace Gateware

namespace SimState

/-- Every signal holds a value of its shape. -/
def Ranged (σ : SimState) : Prop := ∀ s v, σ.get? s = some v → s.shape.wrap v = v

variable {σ τ : SimState}

theorem Ranged.value (h : Ranged σ) (s : Signal) : s.shape.wrap (σ.value s) = σ.value s := by
  rw [SimState.value, OrdMap.getD]
  cases found : σ.get? s with
  | none => exact s.wrap_resetValue
  | some v => exact h s v found

theorem ranged_empty : Ranged ∅ := nofun

theorem ranged_ofKeys (S : OrdSet Signal) : Ranged (.ofKeys S Signal.resetValue) := by
  intro s v found
  rw [OrdMap.get?_ofKeys] at found
  split at found
  · cases found
    exact s.wrap_resetValue
  · cases found

theorem Ranged.insert (h : Ranged σ) {s : Signal} {v : Int} (fits : s.shape.wrap v = v) :
    Ranged (σ.insert s v) := by
  intro t u found
  rw [OrdMap.get?_insert] at found
  split at found
  next same =>
    cases found
    rw [same, fits]
  next => exact h t u found

theorem Ranged.insertAll (h : Ranged σ) {es : List (Signal × Int)}
    (fit : ∀ e ∈ es, e.1.shape.wrap e.2 = e.2) : Ranged (σ.insertAll es) := by
  rw [OrdMap.insertAll]
  induction es generalizing σ with
  | nil => exact h
  | cons e es ih =>
    obtain ⟨here, rest⟩ := List.forall_mem_cons.mp fit
    exact ih (h.insert here) rest

theorem Ranged.override (h : Ranged σ) (h' : Ranged τ) : Ranged (σ.override τ) := by
  intro s v found
  rw [OrdMap.get?_override] at found
  cases new : τ.get? s with
  | some u =>
    rw [new] at found
    exact h' s v (new.trans found)
  | none =>
    rw [new] at found
    exact h s v found

theorem Ranged.reset (h : Ranged σ) (reset : Simulator.ResetFrom σ τ) : Ranged τ := by
  intro s v found
  rcases reset s with same | done
  · exact h s v (same ▸ found)
  · rw [done] at found
    cases found
    exact s.wrap_resetValue

end SimState

theorem Frame.Stores.ranged {D : Signal → Prop} {f g : Frame} (run : Stores D f g)
    (h : f.writes.Ranged) : g.writes.Ranged := by
  induction run with
  | refl => exact h
  | store s v _ _ ih => exact ih (h.insert (s.shape.wrap_wrap v))

namespace MemoryState

variable {m : MemoryState} (regular : m.Regular) {p : Memory.Port} (hp : p ∈ m.memory.ports)

include regular hp

theorem Regular.wrap_read (adr : Int) : p.datR.shape.wrap (m.read adr) = m.read adr := by
  rw [(regular.ports p hp).read, Shape.wrap_unsigned_of_lt (regular.word adr)]

theorem Regular.wrap_followed (k : Nat) : p.datR.shape.wrap (m.followed k) = m.followed k := by
  rw [followed]
  split
  · exact regular.wrap_read hp _
  · rw [(regular.ports p hp).read, Shape.wrap_unsigned_of_lt (Nat.two_pow_pos _)]

end MemoryState

namespace Process

/-- What a process reads of memories is there. -/
def ReadsFrom (ms : List Memory) : Process → Prop
  | .logic .. => True
  | .asyncRead i p => ∃ m, ms[i]? = some m ∧ p ∈ m.ports
  | .registeredRead i k p => ∃ m, ms[i]? = some m ∧ m.ports[k]? = some p

/-- The reads of memories, whatever these hold. -/
theorem mem_ofMemories_iff {ms : List MemoryState} {q : Process} :
    q ∈ ofMemories ms ↔ ∃ i m k p, (ms.map (·.memory))[i]? = some m ∧ m.ports[k]? = some p ∧
      (p.asyncRead = true ∧ q = .asyncRead i p ∨
        MemoryState.followsAddress p = true ∧ q = .registeredRead i k p) := by
  constructor
  · intro hq
    obtain ⟨⟨m, i⟩, hm, hq⟩ := List.mem_flatMap.mp hq
    obtain ⟨⟨p, k⟩, hp, given⟩ := List.mem_filterMap.mp hq
    have memory : (ms.map (·.memory))[i]? = some m.memory := by
      rw [List.getElem?_map, List.mem_zipIdx_iff_getElem?.mp hm]
      rfl
    refine ⟨i, m.memory, k, p, memory, List.mem_zipIdx_iff_getElem?.mp hp, ?_⟩
    dsimp only at given
    split at given
    next async =>
      cases given
      exact .inl ⟨async, rfl⟩
    next clocked =>
      split at given
      next mode =>
        cases given
        exact .inr ⟨MemoryState.followsAddress_iff.mpr ⟨Bool.eq_false_iff.mpr clocked, mode⟩, rfl⟩
      next => cases given
  · rintro ⟨i, memory, k, p, at_i, at_k, kind⟩
    rw [List.getElem?_map, Option.map_eq_some_iff] at at_i
    obtain ⟨m, at_i, rfl⟩ := at_i
    refine List.mem_flatMap.mpr ⟨(m, i), List.mem_zipIdx_iff_getElem?.mpr at_i,
      List.mem_filterMap.mpr ⟨(p, k), List.mem_zipIdx_iff_getElem?.mpr at_k, ?_⟩⟩
    rcases kind with ⟨async, rfl⟩ | ⟨follows, rfl⟩
    · simp [async]
    · obtain ⟨clocked, mode⟩ := MemoryState.followsAddress_iff.mp follows
      simp [clocked, mode]

theorem readsFrom_ofMemories {ms : List MemoryState} {q : Process} (hq : q ∈ ofMemories ms) :
    q.ReadsFrom (ms.map (·.memory)) := by
  obtain ⟨i, m, k, p, memory, port, ⟨-, rfl⟩ | ⟨-, rfl⟩⟩ := mem_ofMemories_iff.mp hq
  · exact ⟨m, memory, List.mem_of_getElem? port⟩
  · exact ⟨m, memory, port⟩

end Process

namespace Simulator

open Process SimState

variable {ms : List MemoryState} (regular : ∀ m ∈ ms, m.Regular)

include regular

theorem results_ranged {q : Process} (reads : q.ReadsFrom (ms.map (·.memory))) {σ w : SimState}
    (done : results ms σ q = .ok w) : w.Ranged := by
  -- What is read of a memory is one of its words.
  have read : ∀ {i : Nat} {p : Memory.Port} {v : MemoryState → Int},
      (∃ m, (ms.map (·.memory))[i]? = some m ∧ p ∈ m.ports) →
      (∀ m : MemoryState, m.Regular → p ∈ m.memory.ports → p.datR.shape.wrap (v m) = v m) →
      Ranged (.ofList [(p.datR, (ms[i]?.map v).getD 0)]) := by
    rintro i p v ⟨m, at_i, hp⟩ fits
    rw [List.getElem?_map, Option.map_eq_some_iff] at at_i
    obtain ⟨m, at_i, rfl⟩ := at_i
    refine ranged_empty.insertAll fun e he => ?_
    rw [List.mem_singleton.mp he, at_i]
    exact fits m (regular m (List.mem_of_getElem? at_i)) hp
  cases q with
  | logic body writes =>
    rw [results_logic] at done
    have run := Frame.execAll_stores body (fresh σ writes)
    generalize (Frame.execAll body).run.run (fresh σ writes) = ended at done run
    obtain ⟨e | u, g⟩ := ended
    · cases done
    · cases done
      exact run.ranged (ranged_ofKeys writes)
  | asyncRead i p =>
    cases done
    exact read reads fun m hm hp => hm.wrap_read hp _
  | registeredRead i k p =>
    cases done
    obtain ⟨m, at_i, at_k⟩ := reads
    exact read ⟨m, at_i, List.mem_of_getElem? at_k⟩ fun m hm hp => hm.wrap_followed hp k

theorem pass_ranged {ps : List Process} (reads : ∀ q ∈ ps, q.ReadsFrom (ms.map (·.memory)))
    {σ : SimState} (h : σ.Ranged) : (pass ms ps σ).2.Ranged := by
  induction ps generalizing σ with
  | nil => exact h
  | cons q ps ih =>
    obtain ⟨here, rest⟩ := List.forall_mem_cons.mp reads
    rw [pass]
    cases done : results ms σ q with
    | error e => exact h
    | ok w => exact ih rest (h.override (results_ranged regular here done))

omit regular

/-- What an edge loads: what the domain's statements write, and reset values in reset. -/
theorem get?_loaded {sim : Simulator} {domain : String} {writes : SimState}
    (h : sim.loaded domain = .ok writes) :
    ∃ f, (Frame.execAll (sim.sync.getD domain [])).run.run
        { state := sim.state, clocked := true } = (.ok (), f) ∧
      ∀ s, writes.get? s =
        if sim.inReset domain = true ∧ s ∈ resettable (sim.sync.getD domain []) then
          some s.resetValue
        else f.writes.get? s := by
  unfold loaded at h
  dsimp only at h
  generalize (Frame.execAll (sim.sync.getD domain [])).run.run
    { state := sim.state, clocked := true } = ended at h ⊢
  obtain ⟨e | u, f⟩ := ended
  · cases h
  refine ⟨f, rfl, fun s => ?_⟩
  by_cases reset : sim.inReset domain = true
  · rw [reset] at h ⊢
    cases h
    by_cases acts : s ∈ resettable (sim.sync.getD domain [])
    · rw [if_pos ⟨rfl, acts⟩]
      refine OrdMap.get?_foldl_insert_of_eq (fun e he here => ?_)
        (.inl ⟨(s, s.resetValue), List.mem_map.mpr ⟨s, acts, rfl⟩, rfl⟩)
      obtain ⟨r, -, rfl⟩ := List.mem_map.mp he
      exact congrArg Signal.resetValue here
    · rw [if_neg fun h => acts h.2]
      refine OrdMap.get?_foldl_insert_of_ne (fun e he here => acts ?_) _
      obtain ⟨r, hr, rfl⟩ := List.mem_map.mp he
      exact here ▸ hr
  · rw [if_neg fun h => reset h.1]
    rw [Bool.eq_false_iff.mpr reset] at h
    cases h
    rfl

theorem memories_clockEdge {sim next : Simulator} {domain : String}
    (edge : sim.clockEdge domain = .ok next) :
    next.memories = sim.memories.map fun m => (m.edge sim.peek domain).1 := by
  obtain ⟨writes, -, same⟩ := bind_eq_ok.mp edge
  cases same
  rw [List.map_map]
  rfl

/-- An edge changes words of memories, never the memories themselves. -/
theorem map_memory_clockEdge {sim next : Simulator} {domain : String}
    (edge : sim.clockEdge domain = .ok next) :
    next.memories.map (·.memory) = sim.memories.map (·.memory) := by
  rw [memories_clockEdge edge, List.map_map]
  exact List.map_congr_left fun m _ => m.memory_edge sim.peek domain

/-- Memories are of their sizes, processes read what is there, and values are in range. -/
structure InRange (sim : Simulator) : Prop where
  memories : ∀ m ∈ sim.memories, m.Regular
  reads : ∀ q ∈ sim.processes, q.ReadsFrom (sim.memories.map (·.memory))
  state : sim.state.Ranged

namespace InRange

variable {sim : Simulator} (h : sim.InRange)

include h

theorem settled : sim.settled.2.Ranged :=
  settled_invariant (fun _ => pass_ranged h.memories h.reads)
    (fun σ ranged => ranged.reset (resetFrom_foldl sim.sync sim.domains (σ, false))) h.state

theorem settle : (settle.run.run sim).2.InRange := by
  rw [run_settle]
  exact ⟨h.memories, h.reads, h.settled⟩

theorem poke (s : Signal) (v : Int) : (sim.poke s v).InRange :=
  ⟨h.memories, h.reads, h.state.insert (s.shape.wrap_wrap v)⟩

theorem clockEdge {domain : String} {next : Simulator} (edge : sim.clockEdge domain = .ok next) :
    next.InRange := by
  have memories := memories_clockEdge edge
  have design := map_memory_clockEdge edge
  obtain ⟨writes, loaded, same⟩ := bind_eq_ok.mp edge
  cases same
  have ranged : writes.Ranged := by
    obtain ⟨f, ran, given⟩ := get?_loaded loaded
    have run := Frame.execAll_stores (sim.sync.getD domain [])
      { state := sim.state, clocked := true }
    rw [ran] at run
    have frame := run.ranged ranged_empty
    intro s v found
    rw [given] at found
    split at found
    · cases found
      exact s.wrap_resetValue
    · exact frame s v found
  refine ⟨fun m hm => ?_, fun q hq => ?_, (h.state.override ranged).insertAll fun e he => ?_⟩
  · rw [memories] at hm
    obtain ⟨old, there, rfl⟩ := List.mem_map.mp hm
    exact (MemoryState.edge_written sim.peek domain (h.memories old there)).2
  · rw [design]
    exact h.reads q hq
  · obtain ⟨edge, hedge, he⟩ := List.mem_flatMap.mp he
    obtain ⟨m, hm, rfl⟩ := List.mem_map.mp hedge
    obtain ⟨p, hp, -, -, -, rfl⟩ := (MemoryState.mem_edge_data sim.peek domain).mp he
    exact (h.memories m hm).wrap_read hp _

end InRange

end Simulator

end Gateware
