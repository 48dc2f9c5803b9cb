import Gateware.Proofs.Loading

/-!
# Settling

Settling is a pass over the logic, a round of asynchronous resets, and another pass if the resets
changed a register.

## Main result

`settleLogic_solves`: one pass solves all of the logic at once, and it does so whatever order the
statements are written in and whatever order the processes are put in.

## Proof strategy

`settled` is what settling does to the state, without the monad. Processes that drive different
signals and run in a schedule end a pass where each of them gives what it gave before. Reordered
statements make the same processes, which a schedule lists in another order at most; a pass along
any schedule ends in the same state.
-/
namespace Gateware.Simulator

open Process

/-! ### Settling as a function of the state -/

/-- The state once all asserted resets have taken hold, and whether any register changed. -/
def resetRound (sync : OrdMap String (List Stmt)) (domains : List ClockDomain) (σ : SimState) :
    SimState × Bool := domains.foldl (holdReset sync) (σ, false)

theorem run_holdResets (sim : Simulator) :
    holdResets.run.run sim =
      (.ok (resetRound sim.sync sim.domains sim.state).2,
        { sim with state := (resetRound sim.sync sim.domains sim.state).1 }) := rfl

/-- What settling does to the state. -/
def settled (sim : Simulator) : Except SimFault Unit × SimState :=
  match pass sim.memories sim.processes sim.state with
  | (.error e, σ) => (.error e, σ)
  | (.ok _, σ) =>
    if (resetRound sim.sync sim.domains σ).2 then
      pass sim.memories sim.processes (resetRound sim.sync sim.domains σ).1
    else (.ok (), (resetRound sim.sync sim.domains σ).1)

theorem run_settle (sim : Simulator) :
    settle.run.run sim = (sim.settled.1, { sim with state := sim.settled.2 }) := by
  simp only [settle, run_bind, run_settleLogic, settled]
  rcases pass sim.memories sim.processes sim.state with ⟨e | u, σ⟩
  · rfl
  · simp only [run_holdResets]
    by_cases changed : (resetRound sim.sync sim.domains σ).2 = true
    · simp only [changed, if_true, run_settleLogic]
    · simp only [changed]
      rfl

theorem settled_congr {sim : Simulator} {ps : List Process}
    (same : ∀ σ, pass sim.memories ps σ = pass sim.memories sim.processes σ) :
    { sim with processes := ps }.settled = sim.settled := by
  simp only [settled, same]

/-- A simulation of a netlist as it starts, settled, with its processes in any order that only leads
forward. -/
def Starts (n : Netlist) (sim : Simulator) : Prop :=
  ∃ first, Loads n first ∧ first.settled.1 = .ok () ∧
    sim = { first with state := first.settled.2 }

/-- With the order that is found a simulation starts. -/
theorem starts_of_start {n : Netlist} {sim : Simulator} (h : start n = .ok sim) : Starts n sim := by
  unfold start at h
  obtain ⟨first, loaded, h⟩ := bind_eq_ok.mp h
  simp only [run_settle] at h
  obtain ⟨⟨⟩, ended, same⟩ := bind_eq_ok.mp h
  cases same
  exact ⟨first, loads_of_load loaded, ended, rfl⟩

/-- A netlist that loads and settles starts. -/
theorem start_eq {n : Netlist} {first : Simulator} (loaded : load n = .ok first)
    (ended : first.settled.1 = .ok ()) :
    start n = .ok { first with state := first.settled.2 } := by
  unfold start
  refine bind_eq_ok.mpr ⟨first, loaded, ?_⟩
  simp only [run_settle]
  exact bind_eq_ok.mpr ⟨(), ended, rfl⟩

/-! ### Netlists with reordered statements -/

/-- The netlist with its combinational statements in another order. -/
def reordered (n : Netlist) (order : List Nat) : Netlist :=
  { n with comb := inOrder n.comb order }

theorem inOrder_perm {ss : List Stmt} {order : List Nat}
    (perm : order.Perm (List.range ss.length)) : (inOrder ss order).Perm ss := by
  have listed := perm.filterMap (ss[·]?)
  rwa [filterMap_range_getElem?] at listed

theorem logic_reordered (n : Netlist) (order : List Nat) :
    (reordered n order).logic = inOrder n.logic order := by
  simp only [Netlist.logic, reordered, inOrder, Stmt.mapExprsOf_eq, List.map_filterMap,
    List.getElem?_map]

theorem overlap_logic {n : Netlist} (undriven : n.ResetsUndriven) {i j : Nat}
    (h : Overlap n.logic i j) : Overlap n.comb i j := by
  -- Resolving references changes neither the place of a statement nor what it assigns.
  have alone : ∀ {k : Nat} {s : Stmt}, n.logic[k]? = some s →
      ∃ t, n.comb[k]? = some t ∧ Stmt.assigned [s] = Stmt.assigned [t] := by
    intro k s hs
    rw [Netlist.logic, Stmt.mapExprsOf_eq, List.getElem?_map, Option.map_eq_some_iff] at hs
    obtain ⟨t, ht, rfl⟩ := hs
    have member : ∀ u ∈ [t], u ∈ n.comb := fun u hu =>
      List.mem_singleton.mp hu ▸ List.mem_of_getElem? ht
    have same : Stmt.assigned (Stmt.mapExprsOf (Expr.resolved n.domains) [t]) = Stmt.assigned [t] :=
      Stmt.assigned_resolved fun u hu => undriven u (mem_targetsOf_of_subset member hu)
    exact ⟨t, ht, same⟩
  obtain ⟨s, hs, t, ht, x, own, other⟩ := h
  obtain ⟨s', hs', same⟩ := alone hs
  obtain ⟨t', ht', same'⟩ := alone ht
  exact ⟨s', hs', t', ht', x, same ▸ own, same' ▸ other⟩

/-- An order that keeps processes together before references are resolved does so after. -/
theorem reorders_logic {n : Netlist} (undriven : n.ResetsUndriven) {order : List Nat}
    (h : Reorders n.comb order) : Reorders n.logic order := by
  have length : n.logic.length = n.comb.length := by
    rw [Netlist.logic, Stmt.mapExprsOf_eq, List.length_map]
  refine ⟨by rw [length]; exact h.perm, h.keeps.imp_of_mem fun {i j} hi hj keeps together => ?_⟩
  -- Statements in one process are linked by a chain of overlaps, and each link was there before.
  obtain ⟨g, hg, mi, mj⟩ := together
  have linked := (grouped n.logic).linked g hg i mi j mj
  have chain : Linked n.comb i j :=
    Relation.ReflTransGen.mono (fun _ _ => overlap_logic undriven) _ _ linked
  exact keeps (chain.together (h.mem_iff.mp hi))

theorem drivers_reordered {n : Netlist} {order : List Nat} (h : Reorders n.comb order)
    (targets : ∀ t ∈ Stmt.targetsOf n.comb, t.isTarget = true) :
    (reordered n order).drivers = n.drivers := by
  have perm := inOrder_perm h.perm
  have before : Stmt.targetFault? n.comb = none := Stmt.targetFault?_eq_none_iff.mpr targets
  have after : Stmt.targetFault? (inOrder n.comb order) = none :=
    Stmt.targetFault?_eq_none_iff.mpr fun t ht =>
      targets t ((Stmt.mem_targetsOf_perm perm).mp ht)
  have claims : Netlist.claimStmts .comb ∅ (inOrder n.comb order) =
      Netlist.claimStmts .comb ∅ n.comb := by
    rw [Netlist.claimStmts, Netlist.claimStmts, before, after, Stmt.assigned_perm perm]
  simp only [Netlist.drivers, reordered, claims]

/-- Statements in another order make the same processes. -/
theorem listed_reordered {n : Netlist} (undriven : n.ResetsUndriven) {order : List Nat}
    (keeps : Reorders n.comb order) (ms : List MemoryState) :
    (ofStmts (reordered n order).logic ++ ofMemories ms).Perm
      (ofStmts n.logic ++ ofMemories ms) := by
  rw [logic_reordered]
  exact (reorders_logic undriven keeps).ofStmts_perm.append_right _

/-- A loaded netlist loads with its statements in any other order. -/
theorem Loads.reordered {n : Netlist} {sim : Simulator} (h : Loads n sim)
    (undriven : n.ResetsUndriven) {order : List Nat} (keeps : Reorders n.comb order) :
    ∃ ps, load (reordered n order) = .ok { sim with processes := ps } := by
  have perm := inOrder_perm keeps.perm
  have stmts : (Simulator.reordered n order).stmts.Perm n.stmts := perm.append_right _
  have listed := listed_reordered undriven keeps sim.memories
  -- The old schedule shows that the processes can be ordered again.
  obtain ⟨ps, found⟩ := ordered_of_scheduled ((Apart.perm listed).mpr (h.apart_listed undriven))
    (h.perm.trans listed.symm) (h.scheduled undriven)
  have loads : Loads (Simulator.reordered n order) { sim with processes := ps } := by
    refine ⟨?_, ?_, ?_, h.memories, orders_of_ordered found, ?_, h.sync, h.domains, h.cycles⟩
    · rw [Netlist.checkDrivers, drivers_reordered keeps h.wellDriven.combTargets]
      exact h.checked
    · have all := Stmt.sugarOf?_eq_none_iff.mp h.plain
      exact Stmt.sugarOf?_eq_none_iff.mpr fun s hs => all s (stmts.mem_iff.mp hs)
    · have all := List.findSome?_eq_none_iff.mp h.bound
      refine List.findSome?_eq_none_iff.mpr fun r hr => all r ?_
      obtain ⟨e, he, hr⟩ := List.mem_flatMap.mp hr
      exact List.mem_flatMap.mpr ⟨e, (Stmt.mem_exprsOf_perm stmts).mp he, hr⟩
    · have same : signalsOf (Simulator.reordered n order) = signalsOf n := by
        simp only [signalsOf, touched, Simulator.reordered, Stmt.assigned_perm perm,
          Stmt.read_perm perm]
      rw [same]
      exact h.state
  exact ⟨ps, loads.load_eq found⟩

/-- However it is loaded, it is the same simulation with its processes in another schedule. -/
theorem Loads.rescheduled {n : Netlist} {sim : Simulator} (h : Loads n sim)
    (undriven : n.ResetsUndriven) {order : List Nat} (keeps : Reorders n.comb order)
    {again : Simulator} (h' : Loads (Simulator.reordered n order) again) :
    ∃ ps, again = { sim with processes := ps } ∧ ps.Perm sim.processes ∧ Scheduled ps := by
  obtain ⟨ps, loaded⟩ := h.reordered undriven keeps
  have same := (loads_of_load loaded).eq_of_loads h'
  have memories : again.memories = sim.memories := by rw [same]
  have listed := listed_reordered undriven keeps again.memories
  have apart := (Apart.perm listed).mpr (memories ▸ h.apart_listed undriven)
  exact ⟨again.processes, same, h'.perm.trans (listed.trans (memories ▸ h.perm.symm)),
    h'.orders.scheduled apart⟩

/-! ### One pass is enough -/

theorem settled_ends {E : Except SimFault Unit → Prop} (ok : E (.ok ())) {sim : Simulator}
    (ends : ∀ p ∈ sim.processes, p.Ends E) : E sim.settled.1 := by
  have first := pass_ends ok ends sim.memories sim.state
  unfold settled
  generalize pass sim.memories sim.processes sim.state = ended at first ⊢
  obtain ⟨e | u, σ⟩ := ended
  · exact first
  · dsimp only
    split
    · exact pass_ends ok ends _ _
    · exact ok

theorem settled_ok {sim : Simulator} (total : ∀ p ∈ sim.processes, p.Total) :
    sim.settled.1 = .ok () :=
  settled_ends (E := (· = .ok ())) rfl fun p hp => (total p hp).ends

/-- In a state that processes leave alone, running one of them does nothing. -/
theorem Solved.runProcess_eq {sim : Simulator} {ps : List Process}
    (solved : Solved sim.memories ps sim.state) {p : Process} (hp : p ∈ ps) :
    (runProcess p).run.run sim = (.ok (), sim) := by
  obtain ⟨w, given, fixed⟩ := solved p hp
  rw [run_runProcess, given]
  simp only [fixed]

/-- Settling depends on the processes but not on which schedule lists them. -/
theorem Loads.settled_perm {n : Netlist} {first : Simulator} (h : Loads n first)
    (undriven : n.ResetsUndriven) {ps : List Process} (perm : ps.Perm first.processes)
    (scheduled : Scheduled ps) {sim : Simulator} (shared : sim.processes = first.processes) :
    { sim with processes := ps }.settled = sim.settled := by
  refine settled_congr fun σ => ?_
  rw [shared, pass_perm h.sound (h.total undriven) (h.apart undriven) perm
    (h.scheduled undriven) scheduled]

/-- One pass solves the logic: from any state of signals and memories it ends where no process and
no read of a memory changes anything. The order of the statements does not matter, as long as it is
kept within each process, and neither does the order of the processes: the netlist is accepted all
the same, it starts with the same values, and it settles to the same values. -/
theorem settleLogic_solves (n : Netlist) (sim : Simulator) (started : Starts n sim)
    (undriven : n.ResetsUndriven) :
    (∀ (σ : SimState) (ms : List MemoryState), ∃ τ,
      settleLogic.run.run { sim with state := σ, memories := ms } =
        (.ok (), { sim with state := τ, memories := ms }) ∧
      ∀ p ∈ ofStmts n.logic ++ ofMemories sim.memories,
        (runProcess p).run.run { sim with state := τ, memories := ms } =
          (.ok (), { sim with state := τ, memories := ms })) ∧
    ∀ order, Reorders n.comb order →
      (∃ ps, start (reordered n order) = .ok { sim with processes := ps }) ∧
      ∀ again, Starts (reordered n order) again → ∃ ps, again = { sim with processes := ps } ∧
        ∀ (σ : SimState) (ms : List MemoryState), ∃ τ,
          settle.run.run { sim with state := σ, memories := ms } =
            (.ok (), { sim with state := τ, memories := ms }) ∧
          settle.run.run { sim with state := σ, memories := ms, processes := ps } =
            (.ok (), { sim with state := τ, memories := ms, processes := ps }) := by
  obtain ⟨first, loads, ended, rfl⟩ := started
  have sound := loads.sound
  have total := loads.total undriven
  have apart := loads.apart undriven
  have scheduled := loads.scheduled undriven
  refine ⟨fun σ ms => ⟨(pass ms first.processes σ).2, ?_, fun p hp => ?_⟩, fun order keeps => ?_⟩
  · rw [run_settleLogic]
    exact Prod.ext (pass_ok total ms σ) rfl
  · have passed : pass ms first.processes σ = (.ok (), (pass ms first.processes σ).2) :=
      Prod.ext (pass_ok total ms σ) rfl
    exact (pass_solved sound apart scheduled passed).runProcess_eq (loads.perm.mem_iff.mpr hp)
  · -- However the processes are ordered again, a schedule of the same processes comes out.
    constructor
    · obtain ⟨ps, loaded⟩ := loads.reordered undriven keeps
      obtain ⟨_, same, perm, scheduled⟩ :=
        loads.rescheduled undriven keeps (loads_of_load loaded)
      cases same
      have settles := loads.settled_perm undriven perm scheduled rfl
      refine ⟨ps, (start_eq loaded (settles ▸ ended)).trans ?_⟩
      simp only [settles]
    · rintro again ⟨other, loaded, -, rfl⟩
      obtain ⟨ps, rfl, perm, scheduled⟩ := loads.rescheduled undriven keeps loaded
      have settles := loads.settled_perm undriven perm scheduled rfl
      refine ⟨ps, by simp only [settles], fun σ ms => ?_⟩
      let moved : Simulator := { first with state := σ, memories := ms }
      have ends : moved.settled.1 = .ok () := settled_ok total
      have same : { moved with processes := ps }.settled = moved.settled :=
        loads.settled_perm undriven perm scheduled rfl
      refine ⟨moved.settled.2, ?_, ?_⟩
      · rw [run_settle]
        exact Prod.ext ends rfl
      · rw [run_settle]
        change (({ moved with processes := ps } : Simulator).settled.1, _) = _
        simp only [same, ends, moved]

open Signal (wire)

namespace Sample

/-- A table read at an address put together from two halves. The statements come in no particular
order, and the word read goes to one of two signals. -/
def table : Netlist where
  comb := [
    .assign (.mux (wire 2 "high" 2) [wire 3 "even" 8, wire 4 "odd" 8]) (wire 7 "word" 8),
    .assign (.slice (wire 5 "place" 4) 0 2) (wire 1 "low" 2),
    .assign (wire 6 "address" 4) (.binary .add (wire 5 "place" 4) (.int 1)),
    .assign (.slice (wire 5 "place" 4) 2 4) (wire 2 "high" 2)]
  cells := .ofList [(⟨0⟩, ⟨⟨0⟩, .memory {
    name := "rom", width := 8, depth := 16, init := [7, 9, 11]
    ports := [{
      name := "r", adr := wire 6 "address" 4, datR := wire 7 "word" 8, write := none, re := none
      mode := .readFirst, asyncRead := true, granularity := 0, domain := "sys" }] }⟩)]

end Sample

open Sample

theorem table_solved :
    ∃ sim, start table = .ok sim ∧ table.ResetsUndriven ∧
      (∀ (σ : SimState) (ms : List MemoryState), ∃ τ,
        settleLogic.run.run { sim with state := σ, memories := ms } =
          (.ok (), { sim with state := τ, memories := ms }) ∧
        ∀ p ∈ ofStmts table.logic ++ ofMemories sim.memories,
          (runProcess p).run.run { sim with state := τ, memories := ms } =
            (.ok (), { sim with state := τ, memories := ms })) ∧
      Reorders table.comb [1, 2, 0, 3] ∧
      ∃ ps, start (reordered table [1, 2, 0, 3]) = .ok { sim with processes := ps } := by
  obtain ⟨sim, started⟩ := exists_ok (by decide +kernel : (start table).isOk = true)
  have undriven : table.ResetsUndriven := by decide +kernel
  have keeps : Reorders table.comb [1, 2, 0, 3] := by decide +kernel
  obtain ⟨solved, moved⟩ := settleLogic_solves table sim (starts_of_start started) undriven
  obtain ⟨⟨ps, again⟩, -⟩ := moved _ keeps
  exact ⟨sim, started, undriven, solved, keeps, ps, again⟩

end Gateware.Simulator
