import Gateware.Proofs.Machine.Recovery

/-!
# A machine runs cycle by cycle

A run of a domain goes from cycle to cycle: inputs are given, the logic follows, and the clock
ticks. For a machine no cycle fails. Each one ends in a settled state, and what the registers hold
in the next cycle is what the clocked statements write in this one.
-/
namespace Gateware

namespace Simulator

/-- Drive signals from outside and let the logic follow. -/
def offer (inputs : List (Signal × Int)) : Step Unit := do
  modify fun sim => inputs.foldl (fun sim x => sim.poke x.1 x.2) sim
  settle

/-- Go on to a cycle of a domain. Every cycle has its own inputs, which stay as they are until the
next edge has passed. -/
def cycle (domain : String) (inputs : Nat → List (Signal × Int)) : Nat → Step Unit
  | 0 => offer (inputs 0)
  | t + 1 => do
    cycle domain inputs t
    tick domain
    offer (inputs (t + 1))

/-- The state once signals are driven from outside. -/
def poked (σ : SimState) (inputs : List (Signal × Int)) : SimState :=
  inputs.foldl (fun σ x => σ.insert x.1 (x.1.shape.wrap x.2)) σ

theorem foldl_poke (sim : Simulator) (inputs : List (Signal × Int)) :
    inputs.foldl (fun sim x => sim.poke x.1 x.2) sim =
      { sim with state := poked sim.state inputs } := by
  induction inputs generalizing sim with
  | nil => rfl
  | cons x inputs ih =>
    rw [List.foldl_cons, ih]
    rfl

theorem run_offer (inputs : List (Signal × Int)) (sim : Simulator) :
    (offer inputs).run.run sim =
      settle.run.run { sim with state := poked sim.state inputs } := by
  rw [← foldl_poke]
  rfl

theorem get?_poked {σ : SimState} {inputs : List (Signal × Int)} {s : Signal}
    (free : ∀ x ∈ inputs, x.1 ≠ s) : (poked σ inputs).get? s = σ.get? s := by
  rw [poked]
  exact OrdMap.get?_foldl_insert_of_ne free σ

end Simulator

theorem Netlist.mem_driven_of_assigned {n : Netlist} {s : Signal} (h : s ∈ Stmt.assigned n.stmts) :
    s ∈ n.driven := by
  obtain ⟨t, ht, hs⟩ := Stmt.drivenBy_iff.mpr h
  exact OrdSet.mem_ofList.mpr (List.mem_append_left _ (List.mem_flatMap.mpr ⟨t, ht, hs⟩))

namespace Machine

open Gateware.Stmt Gateware.Frame Gateware.Simulator

namespace Parts

variable {m : Machine} {p : Parts} {domain : String} {first : Simulator}

theorem driven_of_assigned {x : Signal} (h : x ∈ assigned (p.comb m) ∨ x ∈ assigned (p.sync m)) :
    x ∈ (p.netlist m domain).driven := by
  have stmts : (p.netlist m domain).stmts = p.comb m ++ p.sync m := by
    change p.comb m ++ (p.sync m ++ []) = _
    rw [List.append_nil]
  refine Netlist.mem_driven_of_assigned ?_
  rw [stmts, ← drivenBy_iff, drivenBy_append]
  exact h.imp drivenBy_iff.mpr drivenBy_iff.mpr

/-- The settled states of a run, from cycle to cycle. -/
structure Trace (m : Machine) (p : Parts) (first : Simulator) (σ : Nat → SimState) : Prop where
  solved : ∀ t, Solved [] first.processes (σ t)
  /-- Registers load what the clocked statements write in the cycle before. -/
  edge : ∀ t, ∃ g, (execAll (p.sync m)).run.run { state := σ t, clocked := true } = (.ok (), g) ∧
    ∀ x ∈ assigned (p.sync m), (σ (t + 1)).value x = g.latest x

variable (loaded : Loads (p.netlist m domain) first)
include loaded

/-- Inputs that are not driven otherwise leave the registers as they are. -/
theorem run_offer_ok {inputs : List (Signal × Int)}
    (free : ∀ x ∈ inputs, x.1 ∉ (p.netlist m domain).driven) (σ : SimState)
    (cycles : OrdMap String Nat) :
    ∃ τ, (offer inputs).run.run { first with state := σ, cycles } =
        (.ok (), { first with state := τ, cycles }) ∧
      settle.run.run { first with state := τ, cycles } =
        (.ok (), { first with state := τ, cycles }) ∧
      ∀ x ∈ assigned (p.sync m), τ.get? x = σ.get? x := by
  obtain ⟨τ, ended, stays, keeps⟩ := Built.settle_ok loaded (poked σ inputs) cycles
  refine ⟨τ, (run_offer ..).trans ended, stays, fun x hx => ?_⟩
  -- Neither the logic nor an input drives a register.
  rw [keeps x (registers_undriven loaded hx), get?_poked]
  rintro y hy rfl
  exact free y hy (driven_of_assigned (.inr hx))

/-- One cycle leads to the next. -/
theorem run_next_ok {inputs : List (Signal × Int)}
    (free : ∀ x ∈ inputs, x.1 ∉ (p.netlist m domain).driven) {σ : SimState}
    {cycles : OrdMap String Nat}
    (settled : settle.run.run { first with state := σ, cycles } =
      (.ok (), { first with state := σ, cycles })) :
    ∃ τ cycles', (tick domain >>= fun _ => offer inputs).run.run
          { first with state := σ, cycles } =
        (.ok (), { first with state := τ, cycles := cycles' }) ∧
      settle.run.run { first with state := τ, cycles := cycles' } =
        (.ok (), { first with state := τ, cycles := cycles' }) ∧
      ∃ g, (execAll (p.sync m)).run.run { state := σ, clocked := true } = (.ok (), g) ∧
        ∀ x ∈ assigned (p.sync m), τ.value x = g.latest x := by
  obtain ⟨g, run⟩ := Built.run_sync_ok loaded σ
  obtain ⟨σ₁, ticked, registers⟩ := Built.run_tick_same loaded settled run
  obtain ⟨τ, offered, stays, keeps⟩ := run_offer_ok loaded free σ₁ _
  refine ⟨τ, _, ?_, stays, g, run, fun x hx => ?_⟩
  · rw [run_bind, ticked]
    exact offered
  · exact value_of_written run ((keeps x hx).trans (registers x hx))

/-- A machine runs without end, whatever its inputs are. -/
theorem exists_trace {inputs : Nat → List (Signal × Int)}
    (free : ∀ t, ∀ x ∈ inputs t, x.1 ∉ (p.netlist m domain).driven) (σ₀ : SimState)
    (cycles₀ : OrdMap String Nat) :
    ∃ σ, p.Trace m first σ ∧ (∀ x ∈ assigned (p.sync m), (σ 0).value x = σ₀.value x) ∧
      ∀ t, ∃ cycles, (cycle domain inputs t).run.run { first with state := σ₀, cycles := cycles₀ } =
        (.ok (), { first with state := σ t, cycles }) := by
  -- Every cycle ends in a settled state, from which the next one can be taken.
  have all : ∀ t, ∃ σ cycles,
      (cycle domain inputs t).run.run { first with state := σ₀, cycles := cycles₀ } =
        (.ok (), { first with state := σ, cycles }) ∧
      settle.run.run { first with state := σ, cycles } =
        (.ok (), { first with state := σ, cycles }) := by
    intro t
    induction t with
    | zero =>
      obtain ⟨τ, offered, stays, -⟩ := run_offer_ok loaded (free 0) σ₀ cycles₀
      exact ⟨τ, cycles₀, offered, stays⟩
    | succ t ih =>
      obtain ⟨σ, cycles, run, settled⟩ := ih
      obtain ⟨τ, cycles', next, stays, -⟩ := run_next_ok loaded (free (t + 1)) settled
      refine ⟨τ, cycles', ?_, stays⟩
      rw [cycle, run_bind, run]
      exact next
  choose σ cycles run settled using all
  refine ⟨σ, ⟨fun t => solved loaded (settled t), fun t => ?_⟩, fun x hx => ?_,
    fun t => ⟨cycles t, run t⟩⟩
  · -- The state of the next cycle is the one that this cycle leads to.
    obtain ⟨τ, cycles', next, -, g, sync, registers⟩ :=
      run_next_ok loaded (free (t + 1)) (settled t)
    have here := run (t + 1)
    rw [cycle, run_bind, run t] at here
    have same : τ = σ (t + 1) := congrArg (·.2.state) (next.symm.trans here)
    exact ⟨g, sync, same ▸ registers⟩
  · obtain ⟨τ, offered, -, keeps⟩ := run_offer_ok loaded (free 0) σ₀ cycles₀
    have same : τ = σ 0 := congrArg (·.2.state) (offered.symm.trans (run 0))
    exact same ▸ value_congr (keeps x hx)

/-- Before the first edge registers hold their reset values. -/
theorem start_register {x : Signal} (hx : x ∈ assigned (p.sync m)) :
    SimState.value first.settled.2 x = x.resetValue := by
  obtain ⟨σ₁, ended, -, keeps⟩ := Built.settle_ok loaded first.state first.cycles
  have same : first.settled.2 = σ₁ := congrArg (·.2.state) ((run_settle first).symm.trans ended)
  rw [same, value_congr (keeps x (registers_undriven loaded hx)), loaded.state, SimState.value,
    OrdMap.getD, OrdMap.get?_ofKeys]
  split <;> rfl

end Parts

namespace Parts.Trace

variable {m : Machine} {p : Parts} {first : Simulator} {σ : Nat → SimState}
  (trace : p.Trace m first σ) {supply : Supply} (built : p.Built m supply)
  (older : ∀ s ∈ m.mentioned ++ m.watchers, s.id.index < supply.nextSignal)
include trace built older

/-- The state register follows the next state. -/
theorem state_next (t : Nat) :
    (σ (t + 1)).value p.state = m.shape.wrap ((σ t).value p.nextState) := by
  obtain ⟨g, run, registers⟩ := trace.edge t
  rw [registers _ state_mem_assigned_sync, latest,
    built.run_sync_state (Built.older_driven older) run, built.stateShape]
  rfl

end Parts.Trace

end Machine

end Gateware
