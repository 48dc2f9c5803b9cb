import Gateware.Proofs.Hierarchy.Sum
import Gateware.Proofs.Locality
import Gateware.Proofs.Lowering.Rounds
import Gateware.Proofs.Narrowing

/-!
# Pieces of a larger netlist

A piece of a netlist is left to itself if nothing else drives what the piece drives, once references
are resolved by the domains of the whole.

## Main results

* `Netlist.Placed.part`: what the piece drives is driven in the whole as it is in the piece
* `Simulator.Loads.registered_of_part`: what only the clocked statements of one domain drive is a
  register of that domain
* `Simulator.Untouched.settle`, `Simulator.Untouched.clockEdge`: what nothing drives only changes
  from outside
* `Simulator.Reachable.loads_own`: on an edge the registers of a piece load what its own statements
  write
* `Simulator.Moves`: the steps of a simulation that leave driving the piece to the netlist
-/
namespace Gateware

namespace Netlist

/-- What a netlist drives once references are resolved. -/
def drivenUnder (domains : List ClockDomain) (n : Netlist) : OrdSet Signal :=
  (n.mapExprs (Expr.resolved domains)).driven

/-- A netlist is the sum of a piece and others that drive nothing that the piece drives. -/
def Placed (piece n : Netlist) : Prop :=
  ∃ before after, n = before ++ piece ++ after ∧
    ∀ s ∈ piece.drivenUnder n.domains, s ∉ (before ++ after).drivenUnder n.domains

/-- An expression is about signals that nothing in the netlist drives. -/
def External (n : Netlist) (e : Expr) : Prop :=
  ∀ s ∈ (e.resolved n.domains).mentions, s ∉ n.drivenUnder n.domains

instance (n : Netlist) (e : Expr) : Decidable (n.External e) :=
  inferInstanceAs (Decidable (∀ s ∈ (e.resolved n.domains).mentions, _))

theorem Part.mem_driven {n : Netlist} {p : Part} {s : Signal} (h : s ∈ p.drives n) :
    s ∈ n.driven := by
  have stated : ∀ ss : List Stmt, (∀ u ∈ ss, u ∈ n.stmts) → s ∈ Stmt.assigned ss →
      s ∈ n.driven := by
    intro ss inside assigned
    obtain ⟨u, hu, drives⟩ := Stmt.mem_assigned.mp assigned
    simp only [Stmt.assigned, OrdSet.mem_ofList, Stmt.targetsOf, List.append_nil,
      List.mem_flatMap] at drives
    exact Netlist.mem_driven.mpr (.inl ⟨u, inside u hu, drives⟩)
  cases p with
  | comb => exact stated n.comb n.mem_stmts_of_comb h
  | sync domain => exact stated _ mem_stmts_of_getD h
  | cell id =>
    cases found : n.cells.get? id with
    | none => simp [drives, found] at h
    | some c =>
      rw [drives, found] at h
      exact Netlist.mem_driven.mpr (.inr ⟨id, c, found, h⟩)

theorem Part.stmts_append (p : Part) (a b : Netlist) :
    p.stmts (a ++ b) = p.stmts a ++ p.stmts b := by
  cases p with
  | comb | cell => rfl
  | sync domain => exact getD_sync_append a b domain

/-- A part of a sum drives what it drives in the middle summand or in the others. -/
theorem Part.drives_mapExprs_append {f : Expr → Expr} {before piece after : Netlist} {p : Part}
    {s : Signal} (h : s ∈ p.drives ((before ++ piece ++ after).mapExprs f)) :
    s ∈ p.drives (piece.mapExprs f) ∨ s ∈ p.drives ((before ++ after).mapExprs f) := by
  have stated (p : Part) (assigned : s ∈ Stmt.assigned
      (p.stmts ((before ++ piece ++ after).mapExprs f))) :
      s ∈ Stmt.assigned (p.stmts (piece.mapExprs f)) ∨
        s ∈ Stmt.assigned (p.stmts ((before ++ after).mapExprs f)) := by
    simp only [stmts_mapExprs, stmts_append, Stmt.mapExprsOf_eq, List.map_append,
      Stmt.mem_assigned_append] at assigned ⊢
    tauto
  cases p with
  | comb => exact stated .comb h
  | sync domain => exact stated (.sync domain) h
  | cell id =>
    simp only [drives, mapExprs, OrdMap.get?_map, get?_cells_append] at h ⊢
    generalize before.cells.get? id = first at h ⊢
    generalize piece.cells.get? id = second at h ⊢
    cases first with
    | some c => exact .inr h
    | none =>
      cases second with
      | some c => exact .inl h
      | none => exact .inr h

theorem Part.mem_drives {n : Netlist} {p : Part} {s : Signal} (h : s ∈ Stmt.assigned (p.stmts n)) :
    s ∈ p.drives n := by
  cases p with
  | comb | sync => exact h
  | cell id => simp [stmts, Stmt.assigned, Stmt.targetsOf] at h

namespace Placed

variable {piece n : Netlist} (placed : piece.Placed n)

include placed

/-- What a piece drives is driven in the whole as it is in the piece. -/
theorem part {s : Signal} (hs : s ∈ piece.drivenUnder n.domains) {p : Part}
    (h : s ∈ p.drives (n.mapExprs (Expr.resolved n.domains))) :
    s ∈ p.drives (piece.mapExprs (Expr.resolved n.domains)) := by
  obtain ⟨before, after, whole, apart⟩ := placed
  generalize n.domains = domains at hs h apart ⊢
  subst whole
  exact (Part.drives_mapExprs_append h).resolve_right fun other =>
    apart s hs (Part.mem_driven other)

theorem mem_drives {p : Part} {s : Signal} (h : s ∈ Stmt.assigned (p.stmts piece)) :
    s ∈ p.drives n := by
  obtain ⟨before, after, rfl, -⟩ := placed
  refine Part.mem_drives ?_
  simp only [Part.stmts_append, Stmt.mem_assigned_append]
  exact .inl (.inr h)

theorem contains {domain : String} (h : piece.sync.contains domain = true) :
    n.sync.contains domain = true := by
  obtain ⟨before, after, rfl, -⟩ := placed
  simp [contains_sync_append, h]

/-- The statements of a part, those of the piece in the middle. The others assign nothing that the
piece drives. -/
theorem stmts (p : Part) :
    ∃ front back, Stmt.mapExprsOf (Expr.resolved n.domains) (p.stmts n) =
        front ++ Stmt.mapExprsOf (Expr.resolved n.domains) (p.stmts piece) ++ back ∧
      ∀ s ∈ piece.drivenUnder n.domains, s ∉ Stmt.assigned front ∧ s ∉ Stmt.assigned back := by
  obtain ⟨before, after, whole, apart⟩ := placed
  refine ⟨Stmt.mapExprsOf (Expr.resolved n.domains) (p.stmts before),
    Stmt.mapExprsOf (Expr.resolved n.domains) (p.stmts after), ?_, fun s hs => ?_⟩
  · rw [congrArg p.stmts whole, Part.stmts_append, Part.stmts_append]
    simp only [Stmt.mapExprsOf_eq, List.map_append]
  · have free := fun h => apart s hs (Part.mem_driven (Part.mem_drives (p := p) h))
    simp only [stmts_mapExprs, Part.stmts_append, Stmt.mapExprsOf_eq, List.map_append,
      Stmt.mem_assigned_append] at free ⊢
    exact not_or.mp free

theorem mem_drives_resolved {p : Part} {s : Signal}
    (h : s ∈ Stmt.assigned (Stmt.mapExprsOf (Expr.resolved n.domains) (p.stmts piece))) :
    s ∈ p.drives (n.mapExprs (Expr.resolved n.domains)) := by
  obtain ⟨front, back, split, -⟩ := placed.stmts p
  refine Part.mem_drives ?_
  rw [stmts_mapExprs, split]
  simp only [Stmt.mem_assigned_append]
  exact .inl (.inr h)

theorem mem_domains {d : ClockDomain} (hd : d ∈ piece.domains) : d ∈ n.domains := by
  obtain ⟨before, after, rfl, -⟩ := placed
  simp [hd]

end Placed

end Netlist

namespace Simulator

open Process

namespace Loads

variable {n : Netlist} {first : Simulator} (h : Loads n first)

include h

theorem drives_sync (domain : String) :
    (Netlist.Part.sync domain).drives (n.mapExprs (Expr.resolved n.domains)) =
      Stmt.assigned (first.sync.getD domain []) := by
  rw [h.sync_getD_eq]
  exact congrArg Stmt.assigned (n.stmts_mapExprs _ (.sync domain))

/-- The data of a memory's ports is driven by the memory's cell. -/
theorem exists_drives_data {m : Memory} (hm : m ∈ first.memories.map (·.memory)) {p : Memory.Port}
    (hp : p ∈ m.ports) :
    ∃ id, p.datR ∈ (Netlist.Part.cell id).drives (n.mapExprs (Expr.resolved n.domains)) := by
  obtain ⟨state, listed, rfl⟩ := List.mem_map.mp hm
  obtain ⟨c, hc, kind⟩ := exists_cell h.memories listed
  obtain ⟨⟨id, c⟩, entry, rfl⟩ := List.mem_map.mp hc
  refine ⟨id, ?_⟩
  simp only [Netlist.Part.drives, Netlist.mapExprs, OrdMap.get?_map,
    OrdMap.get?_eq_some_iff.mpr entry, Option.map_some, Option.elim_some]
  refine datR_mem_cellTargets (m := state.memory) ?_ hp
  rw [Cell.mapExprs, kind]
  rfl

/-- A process drives what the logic assigns or what a memory shows. -/
theorem driven_cases {s : Signal} (driven : Driven first.processes s) :
    s ∈ Stmt.assigned n.logic ∨
      ∃ m ∈ first.memories.map (·.memory), ∃ p ∈ m.ports, p.datR = s := by
  obtain ⟨p, hp, drives⟩ := driven
  rcases List.mem_append.mp (h.perm.mem_iff.mp hp) with logic | memory
  · exact .inl (mem_outputs_ofStmts logic drives)
  · obtain ⟨m, hm, port, hport, outs, -⟩ := mem_ofMemories memory
    rw [outs, OrdSet.mem_singleton] at drives
    exact .inr ⟨m.memory, List.mem_map_of_mem hm, port, hport, drives.symm⟩

/-- What only the clocked statements of one domain drive is a register of that domain. -/
theorem registered_of_part {domain : String} {s : Signal}
    (only : ∀ p : Netlist.Part, s ∈ p.drives (n.mapExprs (Expr.resolved n.domains)) →
      p = .sync domain) : Registered first domain s := by
  have unshown : ∀ m ∈ first.memories.map (·.memory), ∀ p ∈ m.ports, p.datR ≠ s := by
    rintro m hm p hp rfl
    obtain ⟨id, drives⟩ := h.exists_drives_data hm hp
    cases only _ drives
  refine ⟨h.owns, fun driven => ?_, fun other assigned => ?_, unshown⟩
  · rcases h.driven_cases driven with assigned | ⟨m, hm, p, hp, same⟩
    · cases only .comb assigned
    · exact unshown m hm p hp same
  · rw [← h.drives_sync] at assigned
    cases only _ assigned
    rfl

end Loads

/-! ### Reachable simulations -/

theorem Registered.congr {a b : Simulator} {domain : String} {s : Signal}
    (h : Registered a domain s) (same : SameDesign b a)
    (memories : b.memories.map (·.memory) = a.memories.map (·.memory)) : Registered b domain s := by
  refine ⟨?_, ?_, ?_, by rw [memories]; exact h.unshown⟩
  · rw [same.processes]
    exact h.owns
  · rw [same.processes]
    exact h.undriven
  · rw [same.sync]
    exact h.alone

theorem Reachable.registered_of_part {n : Netlist} {sim : Simulator} (reached : Reachable n sim)
    {domain : String} {s : Signal}
    (only : ∀ p : Netlist.Part, s ∈ p.drives (n.mapExprs (Expr.resolved n.domains)) →
      p = .sync domain) : Registered sim domain s := by
  obtain ⟨first, loads, same⟩ := reached.sameDesign
  exact (loads.registered_of_part only).congr same (by rw [reached.memories, loads.memories_eq])

theorem Reachable.after_settle {n : Netlist} {sim after : Simulator} (reached : Reachable n sim)
    (settles : Simulator.settle.run.run sim = (.ok (), after)) : Reachable n after := by
  have again := reached.settle
  rwa [settles] at again

theorem Reachable.after_tick {n : Netlist} {sim after : Simulator} (reached : Reachable n sim)
    {domain : String} (ticks : (Simulator.tick domain).run.run sim = (.ok (), after)) :
    Reachable n after := by
  have again := reached.tick domain
  rwa [ticks] at again

theorem peek_poke {sim : Simulator} {s t : Signal} {v : Int} :
    (sim.poke s v).peek t = if t = s then s.shape.wrap v else sim.peek t := by
  rw [peek, peek, SimState.value, SimState.value, poke, OrdMap.getD, OrdMap.getD,
    OrdMap.get?_insert]
  split <;> rfl

theorem peek_poke_of_mem {own : OrdSet Signal} {sim : Simulator} {s t : Signal} {v : Int}
    (outside : s ∉ own) (mine : t ∈ own) : (sim.poke s v).peek t = sim.peek t := by
  rw [peek_poke, if_neg]
  rintro rfl
  exact outside mine

theorem Loads.peek_eq {n : Netlist} {first : Simulator} (h : Loads n first) (s : Signal) :
    first.peek s = s.resetValue := by
  rw [peek, h.state, SimState.value, OrdMap.getD, OrdMap.get?_ofKeys]
  split <;> rfl

/-! ### Signals that nothing drives -/

/-- Nothing drives the signal, so that it could be a register of any domain. -/
def Untouched (sim : Simulator) (s : Signal) : Prop := ∀ domain, Registered sim domain s

theorem Reachable.untouched {n : Netlist} {sim : Simulator} (reached : Reachable n sim) {s : Signal}
    (free : s ∉ n.drivenUnder n.domains) : Untouched sim s :=
  fun _ => reached.registered_of_part fun _ drives => absurd (Netlist.Part.mem_driven drives) free

namespace Untouched

variable {sim : Simulator} {s : Signal} (h : Untouched sim s)

include h

theorem unassigned (domain : String) : s ∉ Stmt.assigned (sim.sync.getD domain []) := by
  intro assigned
  have one := (h "").alone domain assigned
  have other := (h "_").alone domain assigned
  exact absurd (one.symm.trans other) (by decide)

/-- Settling keeps it, also if it fails. -/
theorem settle : (Simulator.settle.run.run sim).2.state.get? s = sim.state.get? s := by
  have passes : ∀ σ, (pass sim.memories sim.processes σ).2.get? s = σ.get? s :=
    pass_keeps (h "").owns (h "").undriven sim.memories
  have rounds : ∀ σ, (resetRound sim.sync sim.domains σ).1.get? s = σ.get? s := fun σ =>
    foldl_holdReset_other sim.sync (fun d _ acts => absurd
      (OrdSet.mem_toList.mp (List.mem_filter.mp acts).1) (h.unassigned d.name)) (σ, false)
  rw [run_settle]
  simp only [settled]
  have first := passes sim.state
  generalize pass sim.memories sim.processes sim.state = ended at first ⊢
  obtain ⟨e | u, σ⟩ := ended
  · exact first
  · dsimp only
    split
    · exact (passes _).trans ((rounds σ).trans first)
    · exact (rounds σ).trans first

theorem clockEdge {edged : String} {next : Simulator} (edge : sim.clockEdge edged = .ok next) :
    next.state.get? s = sim.state.get? s := by
  obtain ⟨writes, loaded, given⟩ := (h edged).get?_clockEdge edge
  rw [given, loaded_other loaded (h.unassigned edged)]
  rfl

end Untouched

section External

variable {n : Netlist} {sim : Simulator} (reached : Reachable n sim)

include reached

/-- What nothing drives always holds a value of its shape. -/
theorem Reachable.wrap_peek {s : Signal} (free : s ∉ n.drivenUnder n.domains) :
    s.shape.wrap (sim.peek s) = sim.peek s := by
  refine (reached.invariant
    (P := fun sim => Untouched sim s ∧ s.shape.wrap (sim.peek s) = sim.peek s) ?_ ?_ ?_ ?_).2
  · rintro sim ⟨untouched, wrapped⟩
    refine ⟨fun domain => (untouched domain).congr (sameDesign_settle sim) ?_, ?_⟩
    · rw [run_settle]
    · have kept : (Simulator.settle.run.run sim).2.peek s = sim.peek s :=
        value_congr untouched.settle
      rwa [kept]
  · rintro sim domain next ⟨untouched, wrapped⟩ edge
    refine ⟨fun other => (untouched other).clockEdge edge, ?_⟩
    rwa [show next.peek s = sim.peek s from value_congr (untouched.clockEdge edge)]
  · intro first loads
    refine ⟨fun domain => loads.registered_of_part fun p drives => ?_, ?_⟩
    · exact absurd (Netlist.Part.mem_driven drives) free
    · rw [loads.peek_eq, Signal.wrap_resetValue]
  · rintro sim t v ⟨untouched, wrapped⟩
    refine ⟨fun domain => (untouched domain).congr ⟨rfl, rfl, rfl⟩ rfl, ?_⟩
    rw [peek_poke]
    split
    next same => rw [same, Shape.wrap_wrap]
    next => exact wrapped

/-- An expression about such signals has a value of its shape. -/
theorem Reachable.eval_external {e : Expr} (external : n.External e)
    (bits : ∀ r ∈ e.refs, (Expr.standsFor n.domains r).shape = .unsigned 1) :
    ∃ v, (e.resolved n.domains).eval sim.peek = .ok v ∧ e.shape.Holds v := by
  obtain ⟨v, value⟩ := Expr.eval_ok sim.peek (e.resolved n.domains) (Expr.refs_resolved n.domains e)
  refine ⟨v, value, (Expr.resolved_within n.domains e bits).holds ?_⟩
  refine Shape.wrap_eq_self_iff.mp (Expr.eval_wrapped (fun s hs => ?_) value)
  exact Shape.wrap_eq_self_iff.mp (reached.wrap_peek (external s hs))

theorem Reachable.eval_settle {e : Expr} (external : n.External e) :
    (e.resolved n.domains).eval (Simulator.settle.run.run sim).2.peek =
      (e.resolved n.domains).eval sim.peek :=
  Expr.eval_congr _ fun s hs => value_congr (reached.untouched (external s hs)).settle

theorem Reachable.eval_clockEdge {e : Expr} (external : n.External e) {edged : String}
    {next : Simulator} (edge : sim.clockEdge edged = .ok next) :
    (e.resolved n.domains).eval next.peek = (e.resolved n.domains).eval sim.peek :=
  Expr.eval_congr _ fun s hs => value_congr ((reached.untouched (external s hs)).clockEdge edge)

end External

/-! ### Edges -/

/-- On an edge a register of a piece loads what the piece's own statements write, unless it is
reset. -/
theorem Reachable.loads_own {n piece : Netlist} {sim : Simulator} (reached : Reachable n sim)
    (placed : piece.Placed n) {domain : String} {s : Signal} (h : Registered sim domain s)
    (hs : s ∈ piece.drivenUnder n.domains)
    (spared : s.resetLess = true ∨ sim.inReset domain = false) {next : Simulator}
    (edge : sim.clockEdge domain = .ok next) :
    ∃ f g, f.state = sim.state ∧ f.clocked = true ∧
      (Frame.execAll (Stmt.mapExprsOf (Expr.resolved n.domains)
        (piece.sync.getD domain []))).run.run f = (.ok (), g) ∧
      ∀ v, g.writes.get? s = some v → next.peek s = v := by
  obtain ⟨first, loads, same⟩ := reached.sameDesign
  obtain ⟨writes, loaded, taken⟩ := h.get?_clockEdge edge
  obtain ⟨last, ran, written⟩ := get?_loaded loaded
  have kept : ¬ (sim.inReset domain = true ∧ s ∈ resettable (sim.sync.getD domain [])) := by
    rintro ⟨reset, acts⟩
    rcases spared with never | out
    · rw [(h.mem_resettable acts).2] at never
      cases never
    · rw [out] at reset
      cases reset
  obtain ⟨front, back, split, apart⟩ := placed.stmts (.sync domain)
  rw [same.sync, loads.sync_getD_eq, show n.sync.getD domain [] = (Netlist.Part.sync domain).stmts n
    from rfl, split] at ran
  obtain ⟨g, ran, late⟩ := Frame.run_execAll_append_ok.mp ran
  obtain ⟨f, early, middle⟩ := Frame.run_execAll_append_ok.mp ran
  have before := Frame.execAll_stores front { state := sim.state, clocked := true }
  have after := Frame.execAll_stores back g
  rw [early] at before
  rw [late] at after
  refine ⟨f, g, before.state_eq, before.clocked_eq, middle, fun v gives => ?_⟩
  -- The statements after those of the piece leave the register alone.
  have stays : last.writes.get? s = g.writes.get? s :=
    after.writes_eq fun driven => (apart s hs).2 (Stmt.drivenBy_iff.mp driven)
  refine SimState.value_of_get? ?_
  rw [taken, written, if_neg kept, stays, gives]
  rfl

/-! ### Steps -/

/-- A step that succeeds and drives no signal of a piece from outside, with the domain it ticks. -/
inductive Moves (own : OrdSet Signal) : Option String → Simulator → Simulator → Prop
  | poke {sim : Simulator} (s : Signal) (v : Int) (outside : s ∉ own) :
    Moves own none sim (sim.poke s v)
  | settle {sim after : Simulator} (settles : settle.run.run sim = (.ok (), after)) :
    Moves own none sim after
  | tick {sim after : Simulator} (domain : String)
    (ticks : (tick domain).run.run sim = (.ok (), after)) : Moves own (some domain) sim after

namespace Moves

variable {own : OrdSet Signal} {ticked : Option String} {sim after : Simulator}
  (move : Moves own ticked sim after)

include move

theorem reachable {n : Netlist} (reached : Reachable n sim) : Reachable n after := by
  cases move with
  | poke s v _ => exact reached.poke s v
  | settle settles => exact reached.after_settle settles
  | tick domain ticks => exact reached.after_tick ticks

/-- A register that no reset acts on changes only on the edges of its domain. -/
theorem keeps {domain : String} {s : Signal} (h : Registered sim domain s) (mine : s ∈ own)
    (never : s.resetLess = true) (elsewhere : ticked ≠ some domain) :
    after.peek s = sim.peek s := by
  cases move with
  | poke t v outside => exact peek_poke_of_mem outside mine
  | settle settles => exact value_congr (h.settle_keeps settles (.inl never))
  | tick edged ticks =>
    obtain ⟨mid, next, settles, edge, last⟩ := tick_ok ticks
    have before := h.settle settles
    have differ : domain ≠ edged := fun same => elsewhere (congrArg some same.symm)
    refine value_congr ?_
    calc after.state.get? s
        = next.state.get? s := (before.clockEdge edge).settle_keeps last (.inl never)
      _ = mid.state.get? s := before.clockEdge_other edge differ
      _ = sim.state.get? s := h.settle_keeps settles (.inl never)

end Moves

end Simulator

end Gateware
