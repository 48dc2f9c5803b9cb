import Gateware.Lowering.Synchronizer
import Gateware.Proofs.Wires

/-!
# Chains of registers as delays

A value that crosses into a domain through a chain of registers arrives after as many edges of the
domain as there are registers, whatever other domains and resets do.

## Main results

* `Lowering.run_multiReg`: the chain that replaces a synchronizer
* `Lowering.multiReg_delays`: its output shows what the input was that many edges ago

## Proof strategy

No statement but those of the chain drives its registers, and no reset acts on them. So settling and
the edges of other domains keep them, and on an edge of its domain every register takes over what
the one before it held. By induction over a run, the registers hold the latest samples in order.
-/
namespace Gateware

/-! ### The chain -/

namespace Lowering

/-- The register of a chain at a place; `base` is the first free identity. -/
def stage (m : MultiReg) (base i : Nat) : Signal :=
  ⟨⟨base + i⟩, s!"{m.output.name}_multireg{i}", m.input.shape, m.input.shape.wrap m.output.reset,
    true⟩

/-- The registers of a chain, first to last. -/
def stagesOf (m : MultiReg) (base : Nat) : List Signal := (List.range m.stages).map (stage m base)

theorem run_chain (m : MultiReg) (u : Supply) :
    (chain m).run u =
      (stagesOf m u.nextSignal, { u with nextSignal := u.nextSignal + m.stages }) := by
  unfold chain stagesOf
  generalize m.stages = k
  induction k with
  | zero => rfl
  | succ k ih =>
    rw [List.range_succ, List.mapM_append, StateT.run_bind, ih]
    simp only [List.map_append, List.map_singleton]
    rfl

/-- A chain of registers behind an expression, with its end on the output. -/
def delayLine (m : MultiReg) (regs : List Signal) : Netlist :=
  (({} : Netlist).addSync m.odomain (shift m.input regs)).addComb
    [.assign m.output ((regs.getLast?.map Expr.signal).getD m.input)]

theorem run_multiReg {c : Cell} {m : MultiReg} (kind : c.kind = .multiReg m)
    (positive : 1 ≤ m.stages) (u : Supply) :
    (multiReg.lower c).run.run u = (.ok (delayLine m (stagesOf m u.nextSignal)),
      { u with nextSignal := u.nextSignal + m.stages }) := by
  have nonzero : m.stages ≠ 0 := by omega
  have chained : (liftM (chain m) : Build (List Signal)).run.run u =
      (.ok ((chain m).run u).1, ((chain m).run u).2) := rfl
  unfold multiReg
  simp only [kind, nonzero, if_false, run_bind]
  rw [chained, run_chain]
  rfl

section Stages

variable {m : MultiReg} {base : Nat}

theorem nodup_stagesOf : (stagesOf m base).Nodup := by
  refine List.nodup_range.map fun i j same => ?_
  have ids := congrArg (fun s : Signal => s.id.index) same
  simpa [stage] using ids

theorem mem_stagesOf {s : Signal} : s ∈ stagesOf m base ↔ ∃ i < m.stages, stage m base i = s := by
  simp [stagesOf]

theorem getElem?_stagesOf {i : Nat} (h : i < m.stages) :
    (stagesOf m base)[i]? = some (stage m base i) := by
  simp [stagesOf, h]

theorem getLast?_stagesOf (positive : 1 ≤ m.stages) :
    (stagesOf m base).getLast? = some (stage m base (m.stages - 1)) := by
  rw [List.getLast?_eq_getElem?, show (stagesOf m base).length = m.stages by simp [stagesOf]]
  exact getElem?_stagesOf (by omega)

end Stages

/-! ### What the chain drives and loads -/

section Piece

variable {m : MultiReg} {regs : List Signal}

theorem mem_assigned_shift {e : Expr} {s : Signal} :
    s ∈ Stmt.assigned (shift e regs) ↔ s ∈ regs := by
  induction regs generalizing e with
  | nil => simp [shift, Stmt.assigned, Stmt.targetsOf]
  | cons r rs ih =>
    rw [shift, ← List.singleton_append, Stmt.mem_assigned_append, ih, Simulator.assigned_wire,
      List.mem_cons]

theorem mapExprsOf_shift (domains : List ClockDomain) (e : Expr) :
    Stmt.mapExprsOf (Expr.resolved domains) (shift e regs) = shift (e.resolved domains) regs := by
  induction regs generalizing e with
  | nil => rfl
  | cons r rs ih =>
    rw [shift, Stmt.mapExprsOf, ih]
    rfl

theorem getD_sync_delayLine (domain : String) : (delayLine m regs).sync.getD domain [] =
    if domain = m.odomain then shift m.input regs else [] := by
  change (OrdMap.insert ∅ m.odomain (shift m.input regs)).getD domain [] = _
  rw [OrdMap.getD, OrdMap.get?_insert]
  split <;> rfl

/-- Logic drives the output of a chain, clocked statements its registers. -/
theorem mem_drives_delayLine {domains : List ClockDomain} {p : Netlist.Part} {s : Signal} :
    s ∈ p.drives ((delayLine m regs).mapExprs (Expr.resolved domains)) ↔
      p = .comb ∧ s = m.output ∨ p = .sync m.odomain ∧ s ∈ regs := by
  cases p with
  | comb =>
    refine (Simulator.assigned_wire m.output _).trans ?_
    simp
  | cell id =>
    change s ∈ (∅ : OrdSet Signal) ↔ _
    simp
  | sync domain =>
    change s ∈ Stmt.assigned ((Netlist.Part.sync domain).stmts _) ↔ _
    rw [Netlist.stmts_mapExprs, Netlist.Part.stmts, getD_sync_delayLine]
    by_cases same : domain = m.odomain
    · rw [if_pos same, mapExprsOf_shift, mem_assigned_shift]
      simp [same]
    · rw [if_neg same]
      simp [Stmt.mapExprsOf, Stmt.assigned, Stmt.targetsOf, same]

/-- On an edge each register of a chain takes what the one before it held. -/
theorem writes_shift {e : Expr} {v : Int} {f g : Frame} (distinct : regs.Nodup)
    (clocked : f.clocked = true) (value : e.eval f.state.value = .ok v)
    (run : (Frame.execAll (shift e regs)).run.run f = (.ok (), g)) {i : Nat} {r : Signal}
    (found : regs[i]? = some r) :
    g.writes.get? r = ((v :: regs.map f.state.value)[i]?).map r.shape.wrap := by
  induction regs generalizing e v f i with
  | nil => cases found
  | cons s rs ih =>
    obtain ⟨fresh, distinct⟩ := List.nodup_cons.mp distinct
    obtain ⟨f', first, rest⟩ := Frame.run_execAll_cons_ok.mp run
    obtain ⟨u, read, rfl⟩ := Frame.run_assign_signal_ok.mp first
    rw [Frame.seen_clocked clocked, value] at read
    cases read
    cases i with
    | zero =>
      cases found
      have stores := Frame.execAll_stores (shift (.signal r) rs) (f.stored r v)
      rw [rest] at stores
      rw [stores.writes_eq fun driven =>
        fresh (mem_assigned_shift.mp (Stmt.drivenBy_iff.mp driven)),
        Frame.stored_writes, if_pos rfl]
      rfl
    | succ i => exact ih (f := f.stored s v) distinct clocked rfl rest found

end Piece

end Lowering

/-! ### A chain in a netlist -/

namespace Simulator

open Lowering

/-- The samples of an expression before the edges of a domain, latest first, in a run that drives no
signal of a piece from outside. -/
inductive Sampled (n : Netlist) (own : OrdSet Signal) (domain : String) (e : Expr) :
    List Int → Simulator → Prop
  | start {sim : Simulator} (started : Starts n sim) : Sampled n own domain e [] sim
  | move {xs : List Int} {sim after : Simulator} {ticked : Option String}
    (before : Sampled n own domain e xs sim) (step : Moves own ticked sim after)
    (elsewhere : ticked ≠ some domain) : Sampled n own domain e xs after
  | edge {xs : List Int} {sim after : Simulator} {v : Int} (before : Sampled n own domain e xs sim)
    (value : e.eval sim.peek = .ok v) (step : Moves own (some domain) sim after) :
    Sampled n own domain e (v :: xs) after

theorem Sampled.reachable {n : Netlist} {own : OrdSet Signal} {domain : String} {e : Expr}
    {xs : List Int} {sim : Simulator} (h : Sampled n own domain e xs sim) : Reachable n sim := by
  induction h with
  | start started => exact .start started
  | move _ step _ ih => exact step.reachable ih
  | edge _ _ step ih => exact step.reachable ih

section Chain

variable {m : MultiReg} {base : Nat} {n : Netlist}
  (placed : (delayLine m (stagesOf m base)).Placed n)

theorem stage_driven {i : Nat} (hi : i < m.stages) (domains : List ClockDomain) :
    stage m base i ∈ (delayLine m (stagesOf m base)).drivenUnder domains :=
  Netlist.Part.mem_driven (mem_drives_delayLine.mpr (.inr ⟨rfl, mem_stagesOf.mpr ⟨i, hi, rfl⟩⟩))

theorem output_driven (domains : List ClockDomain) :
    m.output ∈ (delayLine m (stagesOf m base)).drivenUnder domains :=
  Netlist.Part.mem_driven (mem_drives_delayLine.mpr (.inl ⟨rfl, rfl⟩))

theorem resetValue_stage (i : Nat) :
    (stage m base i).resetValue = m.input.shape.wrap m.output.reset := Shape.wrap_wrap ..

include placed

/-- By the driver check the output is none of the registers. -/
theorem Loads.output_not_mem {first : Simulator} (loads : Loads n first) :
    m.output ∉ stagesOf m base := by
  intro listed
  have one : n.OneDriver := (Netlist.checkDrivers_ok_iff.mp loads.checked).2
  have logic : m.output ∈ Netlist.Part.comb.drives n :=
    placed.mem_drives ((assigned_wire m.output _).mpr rfl)
  have clocked : m.output ∈ (Netlist.Part.sync m.odomain).drives n := by
    refine placed.mem_drives ?_
    rwa [Netlist.Part.stmts, getD_sync_delayLine, if_pos rfl, mem_assigned_shift]
  cases one _ _ _ logic clocked

section Reached

variable {sim : Simulator} (reached : Reachable n sim)

include reached

theorem Reachable.stage_registered {i : Nat} (hi : i < m.stages) :
    Registered sim m.odomain (stage m base i) := by
  obtain ⟨first, loads, -⟩ := reached.sameDesign
  refine reached.registered_of_part fun p drives => ?_
  rcases mem_drives_delayLine.mp (placed.part (stage_driven hi _) drives) with ⟨-, same⟩ | ⟨own, -⟩
  · exact absurd (mem_stagesOf.mpr ⟨i, hi, same⟩) (loads.output_not_mem placed)
  · exact own

/-- The output shows the last register. -/
theorem Reachable.output_wired (positive : 1 ≤ m.stages) :
    Wired sim.processes m.output (stage m base (m.stages - 1)) := by
  obtain ⟨first, loads, same⟩ := reached.sameDesign
  have last : m.stages - 1 < m.stages := by omega
  have undriven := (reached.stage_registered placed last).undriven
  rw [same.processes] at undriven ⊢
  obtain ⟨front, back, split, apart⟩ := placed.stmts .comb
  have piece : (delayLine m (stagesOf m base)).comb =
      [.assign m.output (stage m base (m.stages - 1))] := by
    change [Stmt.assign m.output _] = _
    rw [getLast?_stagesOf positive]
    rfl
  have logic : n.logic = front ++ .assign m.output (stage m base (m.stages - 1)) :: back := by
    rw [Netlist.Part.stmts, Netlist.Part.stmts, piece, List.append_assoc] at split
    exact split
  obtain ⟨before, after⟩ := apart _ (output_driven _)
  refine loads.wired logic before after (fun p drives => ?_) fun s hs => ?_
  · rcases mem_drives_delayLine.mp (placed.part (output_driven _) drives) with
      ⟨own, -⟩ | ⟨-, listed⟩
    · exact own
    · exact absurd listed (loads.output_not_mem placed)
  · cases List.mem_singleton.mp hs
    exact undriven

/-- On an edge the registers shift by one, and the first one takes the input. -/
theorem Reachable.stage_clockEdge {next : Simulator} (edge : sim.clockEdge m.odomain = .ok next)
    {v : Int} (value : (m.input.resolved n.domains).eval sim.peek = .ok v) {i : Nat}
    (hi : i < m.stages) {u : Int} (given : (v :: (stagesOf m base).map sim.peek)[i]? = some u) :
    next.peek (stage m base i) = m.input.shape.wrap u := by
  obtain ⟨f, g, state, clocked, ran, taken⟩ := reached.loads_own placed
    (reached.stage_registered placed hi) (stage_driven hi _) (.inl rfl) edge
  rw [getD_sync_delayLine, if_pos rfl, mapExprsOf_shift] at ran
  refine taken _ ?_
  have value : (m.input.resolved n.domains).eval f.state.value = .ok v := state ▸ value
  rw [writes_shift nodup_stagesOf clocked value ran (getElem?_stagesOf hi), state]
  exact congrArg (Option.map _) given

end Reached

end Chain

/-! ### Runs -/

/-- The registers hold the latest samples in order, and the output shows the last register. -/
structure Delayed (m : MultiReg) (base : Nat) (xs : List Int) (sim : Simulator) : Prop where
  fit : ∀ x ∈ xs, m.input.shape.Holds x
  held : ∀ i < m.stages, sim.peek (stage m base i) = xs.getD i (m.input.shape.wrap m.output.reset)
  shown : sim.peek m.output = m.output.shape.wrap (sim.peek (stage m base (m.stages - 1)))

namespace Delayed

variable {m : MultiReg} {base : Nat} {n : Netlist} {xs : List Int} {sim after : Simulator}

theorem wrap_getD (h : Delayed m base xs sim) (i : Nat) :
    m.input.shape.wrap (xs.getD i (m.input.shape.wrap m.output.reset)) =
      xs.getD i (m.input.shape.wrap m.output.reset) := by
  rw [List.getD_eq_getElem?_getD]
  cases found : xs[i]? with
  | none => exact Shape.wrap_wrap ..
  | some x => exact Shape.wrap_eq_self_iff.mpr (h.fit x (List.mem_of_getElem? found))

variable (positive : 1 ≤ m.stages)

include positive

theorem peek_output (h : Delayed m base xs sim) : sim.peek m.output =
    m.output.shape.wrap (xs.getD (m.stages - 1) (m.input.shape.wrap m.output.reset)) := by
  rw [h.shown, h.held _ (by omega)]

variable (placed : (delayLine m (stagesOf m base)).Placed n)

include placed

theorem start (started : Starts n sim) : Delayed m base [] sim := by
  have reached := Reachable.start started
  obtain ⟨first, loads, ended, rfl⟩ := started
  have settles : Simulator.settle.run.run first =
      (.ok (), { first with state := first.settled.2 }) := by
    rw [run_settle, ended]
  refine ⟨by simp, fun i hi => ?_, ?_⟩
  · obtain ⟨owns, undriven, alone, unshown⟩ := reached.stage_registered placed hi
    have registered : Registered first m.odomain (stage m base i) :=
      ⟨owns, undriven, alone, unshown⟩
    have stays := value_congr (registered.settle_keeps settles (.inl rfl))
    exact stays.trans ((loads.peek_eq _).trans (resetValue_stage i))
  · have wired : Wired first.processes m.output (stage m base (m.stages - 1)) :=
      reached.output_wired placed positive
    exact wired.settle settles rfl

section Step

variable (reached : Reachable n sim) (h : Delayed m base xs sim)

include reached h

theorem move {ticked : Option String}
    (step : Moves ((delayLine m (stagesOf m base)).drivenUnder n.domains) ticked sim after)
    (elsewhere : ticked ≠ some m.odomain) : Delayed m base xs after := by
  refine ⟨h.fit, fun i hi => ?_, ?_⟩
  · rw [← h.held i hi]
    exact step.keeps (reached.stage_registered placed hi) (stage_driven hi _) rfl elsewhere
  · exact step.follows (reached.output_wired placed positive) (output_driven _)
      (stage_driven (by omega) _) h.shown

theorem edge (external : n.External m.input)
    (bits : ∀ r ∈ m.input.refs, (Expr.standsFor n.domains r).shape = .unsigned 1) {v : Int}
    (value : (m.input.resolved n.domains).eval sim.peek = .ok v)
    (step : Moves ((delayLine m (stagesOf m base)).drivenUnder n.domains) (some m.odomain)
      sim after) : Delayed m base (v :: xs) after := by
  have shown := step.follows (reached.output_wired placed positive) (output_driven _)
    (stage_driven (by omega) _) h.shown
  obtain ⟨w, same, fits⟩ := reached.eval_external external bits
  rw [value] at same
  cases same
  cases step with
  | tick _ ticks =>
  obtain ⟨mid, next, settles, edge, last⟩ := tick_ok ticks
  have reached' := reached.after_settle settles
  have value' : (m.input.resolved n.domains).eval mid.peek = .ok v := by
    rw [← value, ← reached.eval_settle external, settles]
  have kept : ∀ i < m.stages, mid.peek (stage m base i) = sim.peek (stage m base i) := fun i hi =>
    value_congr ((reached.stage_registered placed hi).settle_keeps settles (.inl rfl))
  refine ⟨List.forall_mem_cons.mpr ⟨fits, h.fit⟩, fun i hi => ?_, shown⟩
  have registered := (reached'.stage_registered placed hi).clockEdge edge
  have stays : after.peek (stage m base i) = next.peek (stage m base i) :=
    value_congr (registered.settle_keeps last (.inl rfl))
  rw [stays]
  cases i with
  | zero =>
    rw [reached'.stage_clockEdge placed edge value' hi rfl]
    exact Shape.wrap_eq_self_iff.mpr fits
  | succ i =>
    have earlier : i < m.stages := by omega
    have given : (v :: (stagesOf m base).map mid.peek)[i + 1]? =
        some (xs.getD i (m.input.shape.wrap m.output.reset)) := by
      rw [List.getElem?_cons_succ, List.getElem?_map, getElem?_stagesOf earlier, Option.map_some,
        kept i earlier, h.held i earlier]
    rw [reached'.stage_clockEdge placed edge value' hi given, h.wrap_getD]
    rfl

end Step

/-- Along a run the registers hold the latest samples. -/
theorem of_sampled (external : n.External m.input)
    (bits : ∀ r ∈ m.input.refs, (Expr.standsFor n.domains r).shape = .unsigned 1)
    (run : Sampled n ((delayLine m (stagesOf m base)).drivenUnder n.domains) m.odomain
      (m.input.resolved n.domains) xs sim) : Delayed m base xs sim := by
  induction run with
  | start started => exact start positive placed started
  | move before step elsewhere ih => exact ih.move positive placed before.reachable step elsewhere
  | edge before value step ih =>
    exact ih.edge positive placed before.reachable external bits value step

end Delayed

end Simulator

namespace Lowering

open Simulator

/-- A chain of registers delays its input by as many edges of its domain as it has registers.
Wherever it is placed, its output shows the sample that was taken before the edge that many back,
wrapped to its own shape, and before there were so many edges the value it resets to. Resets do not
matter, and edges of other domains change nothing. A sample can always be taken, and where no
statement assigns a reset that does not exist, every tick succeeds. -/
theorem multiReg_delays {c : Cell} {m : MultiReg} (kind : c.kind = .multiReg m)
    (positive : 1 ≤ m.stages) (supply : Supply) :
    ∃ chain rest, (multiReg.lower c).run.run supply = (.ok chain, rest) ∧
      ∀ n : Netlist, chain.Placed n → n.External m.input →
        (∀ r ∈ m.input.refs, (Expr.standsFor n.domains r).shape = .unsigned 1) →
        ∀ xs sim, Sampled n (chain.drivenUnder n.domains) m.odomain (m.input.resolved n.domains)
            xs sim →
          sim.peek m.output = m.output.shape.wrap
              (xs.getD (m.stages - 1) (m.input.shape.wrap m.output.reset)) ∧
          (∀ domain after, domain ≠ m.odomain → (tick domain).run.run sim = (.ok (), after) →
            after.peek m.output = sim.peek m.output) ∧
          (∃ v, (m.input.resolved n.domains).eval sim.peek = .ok v) ∧
          n.Uses m.odomain ∧
          (¬ n.AssignsAbsentReset → ∀ domain, n.Uses domain →
            ((tick domain).run.run sim).1 = .ok ()) := by
  refine ⟨_, _, run_multiReg kind positive supply, fun n placed external bits xs sim run => ?_⟩
  have reached := run.reachable
  have delayed := Delayed.of_sampled positive placed external bits run
  refine ⟨delayed.peek_output positive, fun domain after other ticks => ?_, ?_, ?_,
    fun present domain used => ?_⟩
  · have moved := delayed.move positive placed reached (.tick domain ticks)
      fun same => other (Option.some.inj same)
    rw [moved.peek_output positive, delayed.peek_output positive]
  · obtain ⟨v, value, -⟩ := reached.eval_external external bits
    exact ⟨v, value⟩
  · refine .inl (placed.contains ?_)
    change (OrdMap.insert ∅ m.odomain _).contains m.odomain = true
    simp [OrdMap.contains]
  · obtain ⟨first, loads, same⟩ := reached.sameDesign
    exact (same.tick_ends loads ((reached.knows_iff domain).mpr used)).eq_ok present

/-! ### A crossing -/

open Signal (wire)

/-- A sum goes to another clock over two registers, and there to a narrower signal. -/
def crossing : MultiReg where
  input := .binary .add (wire 0 "count" 4) (.int 1)
  output := ⟨⟨1⟩, "arrived", .unsigned 3, 6, false⟩
  odomain := "fast"
  stages := 2

/-- The clock it goes to is reset asynchronously; the other one has a register. -/
def crossed : Netlist :=
  { sync := .ofList [("slow", [.assign (wire 2 "seen" 3) crossing.output])]
    domains := [
      { name := "slow", clk := wire 3 "slow_clk" 1, rst := none, asyncReset := false },
      { name := "fast", clk := wire 4 "fast_clk" 1, rst := some (wire 5 "fast_rst" 1)
        asyncReset := true }] } ++ delayLine crossing (stagesOf crossing 8) ++ {}

/-- A first value. -/
def offered (sim : Simulator) : Simulator := sim.poke (wire 0 "count" 4) 8

/-- A second value while the reset is on, after an edge for the first one. -/
def offeredInReset (sim : Simulator) : Simulator :=
  let sim := ((tick "fast").run.run (offered sim)).2
  (sim.poke (wire 0 "count" 4) 3).poke (wire 5 "fast_rst" 1) 1

theorem crossed_trial {sim : Simulator} (started : start crossed = .ok sim) :
    (crossing.input.resolved crossed.domains).eval (offered sim).peek = .ok 9 ∧
      ((tick "fast").run.run (offered sim)).1 = .ok () ∧
      ((tick "slow").run.run (offeredInReset sim)).1 = .ok () ∧
      (crossing.input.resolved crossed.domains).eval
        ((tick "slow").run.run (offeredInReset sim)).2.peek = .ok 4 ∧
      ((tick "fast").run.run ((tick "slow").run.run (offeredInReset sim)).2).1 = .ok () := by
  apply forall_ok _ sim started
  decide +kernel

theorem crossed_delays :
    ∃ chain rest sim, (multiReg.lower ⟨⟨0⟩, .multiReg crossing⟩).run.run { nextSignal := 8 } =
        (.ok chain, rest) ∧ chain.Placed crossed ∧ crossed.External crossing.input ∧
      Sampled crossed (chain.drivenUnder crossed.domains) "fast"
        (crossing.input.resolved crossed.domains) [4, 9] sim ∧
      sim.peek crossing.output = 1 ∧ ((tick "slow").run.run sim).1 = .ok () := by
  obtain ⟨chain, rest, lowered, delays⟩ :=
    multiReg_delays (c := ⟨⟨0⟩, .multiReg crossing⟩) rfl (by decide) { nextSignal := 8 }
  refine ⟨chain, rest, ?_⟩
  rw [run_multiReg rfl (by decide)] at lowered
  cases lowered
  have placed : (delayLine crossing (stagesOf crossing 8)).Placed crossed := by
    refine ⟨_, _, rfl, ?_⟩
    change ∀ s ∈ OrdSet.toList _, _
    decide +kernel
  have external : crossed.External crossing.input := by decide +kernel
  obtain ⟨sim, started⟩ := exists_ok (by decide +kernel : (start crossed).isOk = true)
  obtain ⟨nine, first, other, four, second⟩ := crossed_trial started
  have run : Sampled crossed
      ((delayLine crossing (stagesOf crossing 8)).drivenUnder crossed.domains)
      "fast" (crossing.input.resolved crossed.domains) [4, 9] _ :=
    .edge (.move (.move (.move (.edge (.move (.start (starts_of_start started))
      (.poke _ _ (by decide +kernel)) (by decide)) nine (.tick _ (eq_ok_of_fst first)))
      (.poke _ _ (by decide +kernel)) (by decide)) (.poke _ _ (by decide +kernel)) (by decide))
      (.tick _ (eq_ok_of_fst other)) (by decide)) four (.tick _ (eq_ok_of_fst second))
  have exist : crossed.ResetsExist := by decide +kernel
  obtain ⟨shown, -, -, -, ends⟩ := delays crossed placed external (by decide) _ _ run
  exact ⟨_, rfl, placed, external, run, shown, ends exist.present "slow" (.inl (by decide +kernel))⟩

end Lowering

end Gateware
