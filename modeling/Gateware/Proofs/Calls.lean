import Gateware.Proofs.Memory.Ports

/-!
# Sequences of calls

Values enter the state of a simulation from outside, by assignments, by resets and from memories.
Whatever is asked of the simulation and in whatever order, they stay in range, also in the middle of
a settling or a tick.

## Main results

`values_in_range`: after any calls every signal holds a value of its shape, every word of a memory
fits its width, and every expression without references evaluates to a value of its shape, also on a
frame that has run some statements.

## Proof strategy

The invariant is `Simulator.InRange`. Each call keeps it, so a run over a list of calls does.
-/
namespace Gateware

namespace Frame

variable {f : Frame} (state : f.state.Ranged) (writes : f.writes.Ranged)

include state writes

theorem wrap_latest (s : Signal) : s.shape.wrap (f.latest s) = f.latest s := by
  rw [latest]
  cases written : f.writes.get? s with
  | none => exact state.value s
  | some v => exact writes s v written

theorem wrap_seen (s : Signal) : s.shape.wrap (f.seen s) = f.seen s := by
  rw [seen]
  split
  · exact state.value s
  · exact wrap_latest state writes s

/-- On values in range every expression without references has a value of its shape. -/
theorem eval_inRange (e : Expr) (resolved : e.refs = []) :
    ∃ v, e.eval f.seen = .ok v ∧ e.shape.Holds v := by
  obtain ⟨v, value⟩ := Expr.eval_ok f.seen e resolved
  have inRange : ∀ s ∈ e.mentions, s.shape.Holds (f.seen s) := fun s _ =>
    s.shape.wrap_eq_self_iff.mp (wrap_seen state writes s)
  exact ⟨v, value, Shape.wrap_eq_self_iff.mp (Expr.eval_wrapped inRange value)⟩

end Frame

theorem MemoryState.Sized.lt_of_mem {m : MemoryState} (sized : m.Sized) :
    ∀ w ∈ m.words, w < 2 ^ m.memory.width := by
  intro w hw
  obtain ⟨a, inside, rfl⟩ := Array.getElem_of_mem hw
  have word := sized.word a
  rwa [read_ofNat, Array.getElem?_eq_getElem inside] at word

namespace Simulator

/-- What can be asked of a simulation, and the parts that settlings and ticks are made of. -/
inductive Call
  | poke (s : Signal) (v : Int)
  | settle
  | tick (domain : String)
  | run (domain : String) (edges : Nat)
  /-- The process at a place, if there is one. -/
  | process (place : Nat)
  /-- One round of asynchronous resets. -/
  | resets
  /-- A clock edge before anything settles. -/
  | edge (domain : String)

def Call.perform : Call → Step Unit
  | poke s v => modify fun sim => sim.poke s v
  | settle => Simulator.settle
  | tick domain => Simulator.tick domain
  | run domain edges => Simulator.run domain edges
  | process place => do (← get).processes[place]?.forM runProcess
  | resets => discard holdResets
  | edge domain => do
    let next ← (← get).clockEdge domain
    set next

/-- Calls one after the other. What a failed one has done stays done. -/
def after (sim : Simulator) (calls : List Call) : Simulator :=
  calls.foldl (fun sim c => (c.perform.run.run sim).2) sim

/-- A frame on the current state that has run statements, as processes do, or as an edge does if it
is clocked. -/
def frameAfter (sim : Simulator) (outputs : OrdSet Signal) (clocked : Bool) (ss : List Stmt) :
    Frame :=
  ((Frame.execAll ss).run.run
    { state := sim.state, writes := .ofKeys outputs Signal.resetValue, clocked }).2

namespace InRange

variable {sim : Simulator} (h : sim.InRange)

include h

theorem tick (domain : String) : ((tick domain).run.run sim).2.InRange :=
  tick_keeps (fun _ now => now.settle) (fun _ _ _ now edge => now.clockEdge edge) h domain

theorem run (domain : String) (edges : Nat) : ((run domain edges).run.run sim).2.InRange := by
  induction edges generalizing sim with
  | zero => exact h
  | succ edges ih =>
    have first := h.tick domain
    rw [Simulator.run, run_bind]
    generalize (Simulator.tick domain).run.run sim = ended at first ⊢
    obtain ⟨e | u, next⟩ := ended
    · exact first
    · exact ih first

theorem runProcess {p : Process} (hp : p ∈ sim.processes) :
    ((runProcess p).run.run sim).2.InRange := by
  rw [run_runProcess]
  cases done : results sim.memories sim.state p with
  | error e => exact h
  | ok w =>
    exact ⟨h.memories, h.reads, h.state.override (results_ranged h.memories (h.reads p hp) done)⟩

theorem holdResets : (holdResets.run.run sim).2.InRange := by
  rw [run_holdResets]
  exact ⟨h.memories, h.reads,
    h.state.reset (resetFrom_foldl sim.sync sim.domains (sim.state, false))⟩

/-- Every call keeps values in range. -/
theorem perform (c : Call) : (c.perform.run.run sim).2.InRange := by
  cases c with
  | poke s v => exact h.poke s v
  | settle => exact h.settle
  | tick domain => exact h.tick domain
  | run domain edges => exact h.run domain edges
  | process place =>
    rw [Call.perform, run_bind, run_get]
    dsimp only
    cases there : sim.processes[place]? with
    | none => exact h
    | some p => exact h.runProcess (List.mem_of_getElem? there)
  | resets => exact h.holdResets
  | edge domain =>
    rw [Call.perform, run_bind, run_get]
    dsimp only
    rw [run_bind, run_lift]
    cases edge : sim.clockEdge domain with
    | error e => exact h
    | ok next => exact h.clockEdge edge

theorem after (calls : List Call) : (sim.after calls).InRange := by
  induction calls generalizing sim with
  | nil => exact h
  | cons c calls ih => exact ih (h.perform c)

theorem frameAfter (outputs : OrdSet Signal) (clocked : Bool) (ss : List Stmt) :
    (sim.frameAfter outputs clocked ss).state.Ranged ∧
      (sim.frameAfter outputs clocked ss).writes.Ranged := by
  have run := Frame.execAll_stores ss
    { state := sim.state, writes := .ofKeys outputs Signal.resetValue, clocked }
  refine ⟨?_, run.ranged (SimState.ranged_ofKeys outputs)⟩
  rw [Simulator.frameAfter, run.state_eq]
  exact h.state

end InRange

/-- Values stay in range. After any calls, pokes of any numbers among them, every signal holds a
value of its shape, every word of a memory fits its width, and every expression without references
has a value of its shape, also where it is evaluated after some statements of a process or an
edge. -/
theorem values_in_range (n : Netlist) (made : n.MemoriesMade) (sim : Simulator)
    (started : Starts n sim) (calls : List Call) :
    (∀ s : Signal, s.shape.Holds ((sim.after calls).peek s)) ∧
    (∀ m ∈ (sim.after calls).memories, ∀ w ∈ m.words, w < 2 ^ m.memory.width) ∧
    ∀ outputs clocked ss (e : Expr), e.refs = [] →
      ∃ v, e.eval ((sim.after calls).frameAfter outputs clocked ss).seen = .ok v ∧
        e.shape.Holds v := by
  obtain ⟨first, loads, -, rfl⟩ := started
  have settled := (loads.inRange made).settle
  rw [run_settle] at settled
  have now := settled.after calls
  refine ⟨fun s => ?_, fun m hm => (now.memories m hm).toSized.lt_of_mem,
    fun outputs clocked ss e resolved => ?_⟩
  · exact s.shape.wrap_eq_self_iff.mp (now.state.value s)
  · obtain ⟨state, writes⟩ := now.frameAfter outputs clocked ss
    exact Frame.eval_inRange state writes e resolved

open Signal (wire)

/-- Numbers that fit neither address nor data are poked, and written to the buffer on two edges. -/
def overflowing : List Call := [
  .poke (wire 0 "ram_w_adr" 2) (-3), .poke (wire 2 "ram_w_we" 2) 7,
  .poke (wire 3 "ram_w_dat_w" 8) 1000, .run "a" 2]

theorem buffer_in_range :
    ∃ sim, buffer.MemoriesMade ∧ start buffer = .ok sim ∧
      (sim.after overflowing).memories.map (·.words.toList) = [[1, 232, 0]] ∧
      (∀ s : Signal, s.shape.Holds ((sim.after overflowing).peek s)) ∧
      ∃ v, (Expr.unary .neg (wire 3 "ram_w_dat_w" 8)).eval (sim.after overflowing).peek = .ok v ∧
        (Expr.unary .neg (wire 3 "ram_w_dat_w" 8)).shape.Holds v := by
  obtain ⟨sim, started⟩ := exists_ok (by decide +kernel : (start buffer).isOk = true)
  have written : ∀ sim, start buffer = .ok sim →
      (sim.after overflowing).memories.map (·.words.toList) = [[1, 232, 0]] :=
    forall_ok (by decide +kernel)
  obtain ⟨signals, -, values⟩ :=
    values_in_range buffer buffer_made sim (starts_of_start started) overflowing
  exact ⟨sim, buffer_made, started, written sim started, signals, values ∅ true [] _ rfl⟩

end Simulator

end Gateware
