import Gateware.Proofs.Memory.Ports

/-!
# What a tick leaves alone

All clock domains share one state. A tick of one of them settles the logic twice, lets its registers
and memories load, and lets the asynchronous resets of every domain take hold.

## Main results

`tick_local`: registers of another domain keep their values unless that domain is reset
asynchronously, memories without a port in the domain keep their words, and no other domain counts a
cycle. In reset, the domain's own registers go to their reset values; those that no reset acts on
load what their statements write.

## Proof strategy

By the driver check a register belongs to one domain, and neither logic nor a memory drives it
(`Registered`). Settling then changes it only by resets, and an edge only by the statements of its
domain.
-/
namespace Gateware

/-- No statement assigns the reset of a domain by name. -/
def Netlist.ResetsUnassigned (n : Netlist) : Prop :=
  ∀ t ∈ Stmt.targetsOf n.stmts, t.drivesRef = false

instance (n : Netlist) : Decidable n.ResetsUnassigned :=
  inferInstanceAs (Decidable (∀ t ∈ Stmt.targetsOf n.stmts, t.drivesRef = false))

theorem Netlist.ResetsUnassigned.apart {n : Netlist} (plain : n.ResetsUnassigned) :
    n.ResetsApart := by
  intro t ht byRef
  rw [plain t ht] at byRef
  cases byRef

theorem Netlist.ResetsUnassigned.exist {n : Netlist} (plain : n.ResetsUnassigned)
    (driven : n.WellDriven) : n.ResetsExist := by
  intro t ht
  rw [Expr.isTarget_resolved n.domains (plain t ht)]
  exact driven.isTarget ht

theorem Netlist.mem_stmts_of_getD {n : Netlist} {domain : String} :
    ∀ s ∈ n.sync.getD domain [], s ∈ n.stmts := by
  intro s hs
  cases found : n.sync.get? domain with
  | none =>
    rw [OrdMap.getD, found] at hs
    cases hs
  | some ss =>
    rw [OrdMap.getD, found] at hs
    exact mem_stmts_of_entry (OrdMap.get?_eq_some_iff.mp found) s hs

namespace Simulator

open Process

/-! ### Registers -/

/-- Only clocked statements of one domain drive the signal. -/
structure Registered (sim : Simulator) (domain : String) (s : Signal) : Prop where
  owns : ∀ p ∈ sim.processes, p.Owns
  undriven : ¬ Driven sim.processes s
  alone : ∀ other, s ∈ Stmt.assigned (sim.sync.getD other []) → other = domain
  unshown : ∀ m ∈ sim.memories.map (·.memory), ∀ p ∈ m.ports, p.datR ≠ s

namespace Loads

variable {n : Netlist} {first : Simulator} (h : Loads n first)

include h

theorem owns : ∀ p ∈ first.processes, p.Owns := by
  intro p hp
  rcases List.mem_append.mp (h.perm.mem_iff.mp hp) with logic | memory
  · obtain ⟨body, rfl, -⟩ := mem_ofStmts logic
    rfl
  · obtain ⟨i, m, k, port, -, -, ⟨-, rfl⟩ | ⟨-, rfl⟩⟩ := mem_ofMemories_iff.mp memory <;> trivial

theorem sync_getD_eq (domain : String) : first.sync.getD domain [] =
    Stmt.mapExprsOf (Expr.resolved n.domains) (n.sync.getD domain []) := by
  rw [h.sync, OrdMap.getD, OrdMap.getD, OrdMap.get?_map]
  cases n.sync.get? domain <;> rfl

theorem assigned_sync (plain : n.ResetsUnassigned) (domain : String) :
    Stmt.assigned (first.sync.getD domain []) = Stmt.assigned (n.sync.getD domain []) := by
  rw [h.sync_getD_eq]
  exact Stmt.assigned_resolved fun t ht =>
    plain t (mem_targetsOf_of_subset Netlist.mem_stmts_of_getD ht)

/-- What a domain's statements assign has no other driver. -/
theorem registered (plain : n.ResetsUnassigned) {domain : String} {s : Signal}
    (hs : s ∈ Stmt.assigned (n.sync.getD domain [])) : Registered first domain s := by
  have one : n.OneDriver := (Netlist.checkDrivers_ok_iff.mp h.checked).2
  have unshown : ∀ m ∈ n.memories, ∀ p ∈ m.ports, p.datR ≠ s := by
    rintro m hm p hp rfl
    have free := (h.datR_free plain.apart hm hp).2 domain
    rw [h.assigned_sync plain] at free
    exact free hs
  refine ⟨h.owns, ?_, fun other assigned => ?_, by rwa [h.memories_eq]⟩
  · -- Logic that drives it would be a second driver, and memories show their data elsewhere.
    rintro ⟨p, hp, drives⟩
    rcases List.mem_append.mp (h.perm.mem_iff.mp hp) with logic | memory
    · have comb : s ∈ Stmt.assigned n.comb := by
        have assigned := mem_outputs_ofStmts logic drives
        rwa [Netlist.logic, Stmt.assigned_resolved fun t ht =>
          plain t (mem_targetsOf_of_subset n.mem_stmts_of_comb ht)] at assigned
      cases one s .comb (.sync domain) comb hs
    · obtain ⟨m, hm, port, hport, outs, -⟩ := mem_ofMemories memory
      rw [outs, OrdSet.mem_singleton] at drives
      exact unshown m.memory (h.memories_eq ▸ List.mem_map_of_mem hm) port hport drives.symm
  · rw [h.assigned_sync plain] at assigned
    cases one s (.sync other) (.sync domain) assigned hs
    rfl

end Loads

theorem Reachable.registered {n : Netlist} {sim : Simulator} (reached : Reachable n sim)
    (plain : n.ResetsUnassigned) {domain : String} {s : Signal}
    (hs : s ∈ Stmt.assigned (n.sync.getD domain [])) : Registered sim domain s := by
  obtain ⟨first, loads, same⟩ := reached.sameDesign
  obtain ⟨owns, undriven, alone, unshown⟩ := loads.registered plain hs
  rw [loads.memories_eq, ← reached.memories] at unshown
  rw [← same.sync] at alone
  rw [← same.processes] at owns undriven
  exact ⟨owns, undriven, alone, unshown⟩

/-! ### Settlings and edges -/

namespace Registered

variable {sim : Simulator} {domain : String} {s : Signal} (h : Registered sim domain s)

include h

theorem settle {mid : Simulator} (settles : settle.run.run sim = (.ok (), mid)) :
    Registered mid domain s := by
  rw [(run_settle_ok settles).2]
  exact ⟨h.owns, h.undriven, h.alone, h.unshown⟩

theorem clockEdge {edged : String} {next : Simulator} (edge : sim.clockEdge edged = .ok next) :
    Registered next domain s := by
  have same := sameDesign_clockEdge edge
  refine ⟨?_, ?_, ?_, ?_⟩
  · rw [same.processes]
    exact h.owns
  · rw [same.processes]
    exact h.undriven
  · rw [same.sync]
    exact h.alone
  · rw [map_memory_clockEdge edge]
    exact h.unshown

theorem mem_resettable {other : String} (acts : s ∈ resettable (sim.sync.getD other [])) :
    other = domain ∧ s.resetLess = false := by
  obtain ⟨assigned, resets⟩ := List.mem_filter.mp acts
  exact ⟨h.alone other (OrdSet.mem_toList.mp assigned), by simpa using resets⟩

/-- Settling keeps a register that no asynchronous reset acts on. -/
theorem settle_keeps {mid : Simulator} (settles : Simulator.settle.run.run sim = (.ok (), mid))
    (free : s.resetLess = true ∨
      ∀ d ∈ sim.domains, d.name = domain → d.asyncReset = false ∨ d.rst = none) :
    mid.state.get? s = sim.state.get? s := by
  refine settled_keeps h.owns h.undriven (run_settle_ok settles).1 fun d hd acts σ => ?_
  obtain ⟨same, resets⟩ := h.mem_resettable acts
  rcases free with never | off
  · rw [never] at resets
    cases resets
  · rcases off d hd same with sync | none
    · simp [asserted, sync]
    · simp [asserted, none]

/-- A register loads on an edge what its domain's statements give it. -/
theorem get?_clockEdge {edged : String} {next : Simulator}
    (edge : sim.clockEdge edged = .ok next) :
    ∃ writes, sim.loaded edged = .ok writes ∧
      next.state.get? s = (writes.get? s).or (sim.state.get? s) := by
  obtain ⟨writes, loaded, same⟩ := bind_eq_ok.mp edge
  cases same
  refine ⟨writes, loaded, (OrdMap.get?_foldl_insert_of_ne (fun e he data => ?_) _).trans
    (OrdMap.get?_override ..)⟩
  -- The read data of memories goes elsewhere.
  obtain ⟨given, hgiven, he⟩ := List.mem_flatMap.mp he
  obtain ⟨m, hm, rfl⟩ := List.mem_map.mp hgiven
  obtain ⟨p, hp, -, -, -, rfl⟩ := (MemoryState.mem_edge_data sim.peek edged).mp he
  exact h.unshown m.memory (List.mem_map_of_mem hm) p hp data

theorem clockEdge_other {edged : String} {next : Simulator} (edge : sim.clockEdge edged = .ok next)
    (other : domain ≠ edged) : next.state.get? s = sim.state.get? s := by
  obtain ⟨writes, loaded, given⟩ := h.get?_clockEdge edge
  rw [given, loaded_other loaded fun assigned => other (h.alone edged assigned).symm]
  rfl

end Registered

/-! ### Ticks -/

theorem cyclesOf_clockEdge {sim next : Simulator} {domain : String}
    (edge : sim.clockEdge domain = .ok next) (other : String) :
    next.cyclesOf other =
      if other = domain then sim.cyclesOf domain + 1 else sim.cyclesOf other := by
  obtain ⟨writes, -, same⟩ := bind_eq_ok.mp edge
  cases same
  rw [cyclesOf, OrdMap.getD, OrdMap.get?_insert]
  split <;> rfl

theorem inReset_of_declared {sim : Simulator} (distinct : (sim.domains.map (·.name)).Nodup)
    {d : ClockDomain} (hd : d ∈ sim.domains) {rst : Signal} (reset : d.rst = some rst)
    (on : sim.peek rst ≠ 0) : sim.inReset d.name = true := by
  have found : sim.domains.find? (·.name = d.name) = some d := by
    have some : (sim.domains.find? (·.name = d.name)).isSome :=
      List.find?_isSome.mpr ⟨d, hd, by simp⟩
    obtain ⟨e, found⟩ := Option.isSome_iff_exists.mp some
    have name : e.name = d.name := by simpa using List.find?_some found
    rw [found, List.inj_on_of_nodup_map distinct (List.mem_of_find?_eq_some found) hd name]
  rw [inReset, found]
  simpa [reset] using on

section Tick

variable {sim mid next after : Simulator} {domain : String}
  (settles : Simulator.settle.run.run sim = (.ok (), mid))
  (edge : mid.clockEdge domain = .ok next)
  (last : Simulator.settle.run.run next = (.ok (), after))

include settles edge last

theorem Registered.tick_other {other : String} {s : Signal} (h : Registered sim other s)
    (differ : other ≠ domain)
    (off : ∀ d ∈ sim.domains, d.name = other → d.asyncReset = false ∨ d.rst = none) :
    after.peek s = sim.peek s := by
  have before := h.settle settles
  have loaded := before.clockEdge edge
  have domains : next.domains = sim.domains := by
    rw [(sameDesign_clockEdge edge).domains, (run_settle_ok settles).2]
  refine value_congr ?_
  calc after.state.get? s
      = next.state.get? s := loaded.settle_keeps last (.inr (by rwa [domains]))
    _ = mid.state.get? s := before.clockEdge_other edge differ
    _ = sim.state.get? s := h.settle_keeps settles (.inr off)

/-- In reset a register goes to its reset value, unless resets do not act on it. -/
theorem Registered.tick_reset {s : Signal} (h : Registered sim domain s)
    (assigned : s ∈ Stmt.assigned (mid.sync.getD domain [])) (reset : mid.inReset domain = true)
    {f : Frame} (ran : (Frame.execAll (mid.sync.getD domain [])).run.run
      { state := mid.state, clocked := true } = (.ok (), f)) :
    after.peek s = if s.resetLess then (f.writes.get? s).getD (sim.peek s) else s.resetValue := by
  have before := h.settle settles
  have loaded := before.clockEdge edge
  obtain ⟨writes, given, loads⟩ := before.get?_clockEdge edge
  obtain ⟨g, ran', written⟩ := get?_loaded given
  rw [ran] at ran'
  cases ran'
  cases never : s.resetLess with
  | true =>
    -- No settling changes it, so the edge decides.
    have stays := h.settle_keeps settles (.inl never)
    have out : ¬ (mid.inReset domain = true ∧ s ∈ resettable (mid.sync.getD domain [])) := by
      rintro ⟨-, acts⟩
      rw [(before.mem_resettable acts).2] at never
      cases never
    have value : after.state.get? s = (f.writes.get? s).or (sim.state.get? s) := by
      rw [loaded.settle_keeps last (.inl never), loads, written, if_neg out, stays]
    rw [if_pos rfl, peek, SimState.value, OrdMap.getD, value]
    cases f.writes.get? s <;> rfl
  | false =>
    -- The edge resets it, and all that the last settling can do is to reset it again.
    have acts : s ∈ resettable (mid.sync.getD domain []) :=
      List.mem_filter.mpr ⟨OrdSet.mem_toList.mpr assigned, by simp [never]⟩
    have value : next.state.get? s = some s.resetValue := by
      rw [loads, written, if_pos ⟨reset, acts⟩]
      rfl
    rw [if_neg Bool.false_ne_true]
    refine SimState.value_of_get? ?_
    rcases settled_resets loaded.owns loaded.undriven (run_settle_ok last).1 with same | resets
    · exact same.trans value
    · exact resets

theorem memories_tick : List.Forall₂ (fun m m' => m'.memory = m.memory ∧
    ((∀ p ∈ m.memory.ports, p.domain ≠ domain) → m'.words = m.words))
    sim.memories after.memories := by
  rw [memories_settle last, memories_clockEdge edge, memories_settle settles,
    List.forall₂_map_right_iff, List.forall₂_same]
  exact fun m _ => ⟨m.memory_edge mid.peek domain, m.words_edge mid.peek domain⟩

theorem cyclesOf_tick (other : String) :
    after.cyclesOf other = sim.cyclesOf other + if other = domain then 1 else 0 := by
  have first : mid.cycles = sim.cycles := by rw [(run_settle_ok settles).2]
  have second : after.cycles = next.cycles := by rw [(run_settle_ok last).2]
  rw [cyclesOf, second]
  refine (cyclesOf_clockEdge edge other).trans ?_
  simp only [cyclesOf, first]
  split
  next same => rw [same]
  next => rfl

end Tick

/-- A tick touches only its own domain. Registers of other domains that are not reset asynchronously
keep their values, memories without a port in the domain keep their words, and only the domain
itself counts a cycle. If its reset is on once the logic has settled, all its registers go to their
reset values, but those that no reset acts on load what the statements write, or stay. -/
theorem tick_local (n : Netlist) (distinct : (n.domains.map (·.name)).Nodup)
    (plain : n.ResetsUnassigned) (sim : Simulator) (reached : Reachable n sim) (domain : String)
    (used : n.Uses domain) :
    ∃ mid after, settle.run.run sim = (.ok (), mid) ∧ (tick domain).run.run sim = (.ok (), after) ∧
      (∀ other, other ≠ domain →
        (∀ d ∈ n.domains, d.name = other → d.asyncReset = false ∨ d.rst = none) →
        ∀ s ∈ Stmt.assigned (n.sync.getD other []), after.peek s = sim.peek s) ∧
      List.Forall₂ (fun m m' => m'.memory = m.memory ∧
        ((∀ p ∈ m.memory.ports, p.domain ≠ domain) → m'.words = m.words))
        sim.memories after.memories ∧
      (∀ other, after.cyclesOf other = sim.cyclesOf other + if other = domain then 1 else 0) ∧
      ∀ d ∈ n.domains, d.name = domain → ∀ rst, d.rst = some rst → mid.peek rst ≠ 0 →
        ∃ f, (Frame.execAll (Stmt.mapExprsOf (Expr.resolved n.domains)
            (n.sync.getD domain []))).run.run { state := mid.state, clocked := true } =
              (.ok (), f) ∧
          ∀ s ∈ Stmt.assigned (n.sync.getD domain []), after.peek s =
            if s.resetLess then (f.writes.get? s).getD (sim.peek s) else s.resetValue := by
  obtain ⟨first, loads, same⟩ := reached.sameDesign
  have ended := same.tick_ends loads ((reached.knows_iff domain).mpr used)
  have ticks := eq_ok_of_fst (ended.eq_ok (plain.exist loads.wellDriven).present)
  obtain ⟨mid, next, settles, edge, last⟩ := tick_ok ticks
  have stays := (run_settle_ok settles).2
  refine ⟨mid, _, settles, ticks, fun other differ off s hs => ?_,
    memories_tick settles edge last, cyclesOf_tick settles edge last, ?_⟩
  · refine (reached.registered plain hs).tick_other settles edge last differ ?_
    rw [same.domains, loads.domains]
    exact off
  · rintro d hd rfl rst reset on
    have sync : mid.sync.getD d.name [] =
        Stmt.mapExprsOf (Expr.resolved n.domains) (n.sync.getD d.name []) := by
      rw [stays, ← loads.sync_getD_eq, ← same.sync]
    have domains : mid.domains = n.domains := by
      rw [stays, ← loads.domains, ← same.domains]
    have inReset : mid.inReset d.name = true := by
      refine inReset_of_declared ?_ (domains ▸ hd) reset on
      rwa [domains]
    obtain ⟨writes, loaded, -⟩ := bind_eq_ok.mp edge
    obtain ⟨f, ran, -⟩ := get?_loaded loaded
    refine ⟨f, sync ▸ ran, fun s hs => ?_⟩
    have assigned : s ∈ Stmt.assigned (mid.sync.getD d.name []) := by
      rwa [sync, ← loads.sync_getD_eq, loads.assigned_sync plain]
    exact (reached.registered plain hs).tick_reset settles edge last assigned inReset ran

/-! ### Two clocks -/

/-- A register that starts at five. -/
def tally : Signal := ⟨⟨5⟩, "tally", .unsigned 4, 5, false⟩

/-- A register that no reset acts on. -/
def record : Signal := ⟨⟨6⟩, "record", .unsigned 4, 0, true⟩

open Signal (wire)

/-- A counter that is reset on request and a record of its last value. In another domain a register
and a memory copy it. -/
def copying : Netlist where
  comb := [
    .assign (wire 1 "a_rst" 1) (wire 4 "request" 1),
    .assign (wire 9 "data" 4) (wire 7 "copy" 4),
    .assign (wire 10 "enable" 1) (.int 1)]
  sync := .ofList [
    ("a", [.assign tally (.binary .add tally (.int 1)), .assign record tally]),
    ("b", [.assign (wire 7 "copy" 4) tally])]
  cells := .ofList [(⟨0⟩, ⟨⟨0⟩, .memory {
    name := "log", width := 4, depth := 2
    ports := [{
      name := "w", adr := wire 8 "place" 1, datR := wire 11 "word" 4
      write := some { enable := wire 10 "enable" 1, data := wire 9 "data" 4 }, re := none
      mode := .readFirst, asyncRead := false, granularity := 0, domain := "b" }] }⟩)]
  domains := [
    { name := "a", clk := wire 0 "a_clk" 1, rst := some (wire 1 "a_rst" 1), asyncReset := false },
    { name := "b", clk := wire 2 "b_clk" 1, rst := some (wire 3 "b_rst" 1), asyncReset := false }]

/-- Count twice, copy twice, and ask for a reset. -/
def counted (sim : Simulator) : Simulator :=
  let sim := ((tick "a").run.run sim).2
  let sim := ((tick "b").run.run sim).2
  let sim := ((tick "a").run.run sim).2
  let sim := ((tick "b").run.run sim).2
  sim.poke (wire 4 "request" 1) 1

/-- The counter, its record and its copy. -/
def seenCopies (sim : Simulator) : Int × Int × Int :=
  (sim.peek tally, sim.peek record, sim.peek (wire 7 "copy" 4))

theorem counted_trial {sim : Simulator} (started : start copying = .ok sim) :
    seenCopies (counted sim) = (7, 6, 7) ∧
      (counted sim).memories.map (·.words.toList) = [[6, 0]] ∧
      (settle.run.run (counted sim)).2.peek (wire 1 "a_rst" 1) ≠ 0 ∧
      ((tick "a").run.run (counted sim)).2.peek record = 7 := by
  apply forall_ok _ sim started
  decide +kernel

theorem copying_resets :
    ∃ sim after, (copying.domains.map (·.name)).Nodup ∧ copying.ResetsUnassigned ∧
      Reachable copying sim ∧ copying.Uses "a" ∧ (tick "a").run.run sim = (.ok (), after) ∧
      seenCopies sim = (7, 6, 7) ∧ seenCopies after = (5, 7, 7) ∧
      after.memories.map (·.words.toList) = [[6, 0]] ∧ after.cyclesOf "b" = sim.cyclesOf "b" := by
  obtain ⟨sim, started⟩ := exists_ok (by decide +kernel : (start copying).isOk = true)
  obtain ⟨before, logged, reset, recorded⟩ := counted_trial started
  have distinct : (copying.domains.map (·.name)).Nodup := by decide +kernel
  have plain : copying.ResetsUnassigned := by decide +kernel
  have used : copying.Uses "a" := .inl (by decide +kernel)
  have reached : Reachable copying (counted sim) :=
    .poke _ _ (.tick _ (.tick _ (.tick _ (.tick _ (.start (starts_of_start started))))))
  generalize counted sim = now at before logged reset recorded reached
  obtain ⟨mid, after, settles, ticks, others, memories, cycles, own⟩ :=
    tick_local copying distinct plain _ reached "a" used
  rw [settles] at reset
  rw [ticks] at recorded
  obtain ⟨f, -, given⟩ := own _ (.head _) rfl _ rfl reset
  have tallied : after.peek tally = 5 := given tally (by decide +kernel)
  have copied : after.peek (wire 7 "copy" 4) = now.peek (wire 7 "copy" 4) :=
    others "b" (by decide) (by decide +kernel) _ (by decide +kernel)
  have kept : now.peek (wire 7 "copy" 4) = 7 := congrArg (·.2.2) before
  have elsewhere : ∀ m ∈ now.memories, ∀ p ∈ m.memory.ports, p.domain ≠ "a" := by
    have ports : ∀ m ∈ copying.memories, ∀ p ∈ m.ports, p.domain ≠ "a" := by decide +kernel
    exact fun m hm => ports m.memory (reached.memories ▸ List.mem_map_of_mem hm)
  have words : List.Forall₂ (fun m m' : MemoryState => m.words.toList = m'.words.toList)
      now.memories after.memories :=
    ((List.forall₂_and_left _ _).mpr ⟨elsewhere, memories⟩).imp fun m m' h => by rw [h.2.2 h.1]
  have stays : now.memories.map (·.words.toList) =
      after.memories.map (·.words.toList) := by
    rwa [← List.forall₂_eq_eq_eq, List.forall₂_map_left_iff, List.forall₂_map_right_iff]
  refine ⟨_, after, distinct, plain, reached, used, ticks, before, ?_, stays ▸ logged, cycles "b"⟩
  rw [seenCopies, tallied, recorded, copied, kept]

end Simulator

end Gateware
