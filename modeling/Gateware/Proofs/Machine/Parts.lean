import Gateware.Machine.Compile
import Gateware.Proofs.Bits
import Gateware.Proofs.Loading

/-!
# What a machine is built from

Building a machine numbers all of its new signals in a row, so none of them is a signal that the
machine mentions, and no two of them are the same.
-/
namespace Gateware

theorem run_fresh (name : String) (shape : Shape) (u : Supply) :
    (Signal.fresh name shape).run u =
      (⟨⟨u.nextSignal⟩, name, shape, 0, false⟩, { u with nextSignal := u.nextSignal + 1 }) := rfl

namespace Machine

/-- The signals behind a load. -/
def Load.signals (l : Load) : List Signal := [l.enable, l.next]

theorem Load.enable_mem (l : Load) : l.enable ∈ l.signals := .head _

theorem Load.next_mem (l : Load) : l.next ∈ l.signals := .tail _ (.head _)

/-- The new signals of a machine and what is done in each state. -/
structure Parts where
  reset : String × Nat
  state : Signal
  nextState : Signal
  loads : List Load
  bodies : List (String × List Stmt)
  start : Option Signal

namespace Parts

/-- The new signals in order. -/
def signals (p : Parts) : List Signal :=
  p.state :: p.nextState :: (p.loads.flatMap Load.signals ++ p.start.toList)

def edges (m : Machine) (p : Parts) : Edges where
  machine := m
  state := p.state
  nextState := p.nextState
  reset := p.reset.1
  start := p.start

def selection (m : Machine) (p : Parts) : List Stmt :=
  m.selection p.state p.nextState p.reset p.bodies

/-- What drives the signals that watch the moment before an edge. -/
def before (m : Machine) (p : Parts) : List Stmt :=
  (p.edges m).drive .beforeEntering (p.edges m).entering ++
    (p.edges m).drive .beforeLeaving (p.edges m).leaving

/-- What drives the signals that watch the moment after an edge. -/
def after (m : Machine) (p : Parts) : List Stmt :=
  (p.edges m).drive .afterEntering (p.edges m).entering ++
    (p.edges m).drive .afterLeaving (p.edges m).leaving

def comb (m : Machine) (p : Parts) : List Stmt := p.selection m ++ p.before m

/-- The register of a load. -/
def register (l : Load) : Stmt := .branch l.enable [.assign l.target l.next] []

def sync (m : Machine) (p : Parts) : List Stmt :=
  .assign p.state p.nextState ::
    (p.loads.map register ++ (p.start.toList.map (fun s => .assign s (.int 0)) ++ p.after m))

/-- The machine as a netlist with the one domain. -/
def netlist (m : Machine) (domain : String) (p : Parts) : Netlist where
  comb := p.comb m
  sync := .ofList [(domain, p.sync m)]

theorem mem_signals_of_load {p : Parts} {l : Load} (hl : l ∈ p.loads) :
    l.enable ∈ p.signals ∧ l.next ∈ p.signals := by
  have inside : ∀ s ∈ l.signals, s ∈ p.signals := fun s hs =>
    .tail _ (.tail _ (List.mem_append_left _ (List.mem_flatMap.mpr ⟨l, hl, hs⟩)))
  exact ⟨inside _ l.enable_mem, inside _ l.next_mem⟩

/-- The parts fit the machine, and their signals were new. -/
structure Built (m : Machine) (supply : Supply) (p : Parts) : Prop where
  initial : m.initial = .ok p.reset
  plain : m.plainBodies p.nextState p.loads = .ok p.bodies
  targets : p.loads.map (·.target) = m.loads
  enables : ∀ l ∈ p.loads, l.enable.shape = .unsigned 1 ∧ l.enable.reset = 0
  nexts : ∀ l ∈ p.loads, l.next.shape = l.target.shape
  stateShape : p.state.shape = m.shape
  stateReset : p.state.resetValue = m.shape.wrap p.reset.2
  nextShape : p.nextState.shape = m.shape
  numbered : p.signals.map (·.id.index) = List.range' supply.nextSignal p.signals.length
  /-- The first cycle is marked if somebody watches the reset state being entered. -/
  marked : p.start.isSome = ((m.events .beforeEntering).contains p.reset.1 ||
    (m.events .afterEntering).contains p.reset.1)
  marks : ∀ s ∈ p.start, s.shape = .unsigned 1 ∧ s.resetValue = 1

end Parts

theorem run_freshLoads (machine : String) (xs : List (Expr × Nat)) (u : Supply) :
    ∃ ls : List Load,
      (xs.mapM fun x => (liftM (Load.fresh machine x.1 x.2) : Build Load)).run.run u =
        (.ok ls, { u with nextSignal := u.nextSignal + (ls.flatMap Load.signals).length }) ∧
      ls.map (·.target) = xs.map (·.1) ∧
      (∀ l ∈ ls, l.enable.shape = .unsigned 1 ∧ l.enable.reset = 0) ∧
      (∀ l ∈ ls, l.next.shape = l.target.shape) ∧
      (ls.flatMap Load.signals).map (·.id.index) =
        List.range' u.nextSignal (ls.flatMap Load.signals).length := by
  induction xs generalizing u with
  | nil => exact ⟨[], rfl, rfl, by simp, by simp, rfl⟩
  | cons x xs ih =>
    obtain ⟨ls, run, targets, enables, nexts, numbered⟩ :=
      ih { u with nextSignal := u.nextSignal + 2 }
    obtain ⟨l, made⟩ : ∃ l, (Load.fresh machine x.1 x.2).run u = l := ⟨_, rfl⟩
    have supply : l.2 = { u with nextSignal := u.nextSignal + 2 } := by rw [← made]; rfl
    refine ⟨l.1 :: ls, ?_, ?_, ?_, ?_, ?_⟩
    · rw [List.mapM_cons, run_bind, run_liftState, made, supply]
      simp only [run_bind, run, run_pure]
      have count : ((l.1 :: ls).flatMap Load.signals).length =
          2 + (ls.flatMap Load.signals).length := by
        rw [List.flatMap_cons, List.length_append]
        rfl
      rw [count, Nat.add_assoc]
    · rw [List.map_cons, List.map_cons, targets, ← made]
      rfl
    · refine List.forall_mem_cons.mpr ⟨?_, enables⟩
      rw [← made]
      exact ⟨rfl, rfl⟩
    · refine List.forall_mem_cons.mpr ⟨?_, nexts⟩
      rw [← made]
      rfl
    · rw [List.flatMap_cons, List.map_append, numbered, List.length_append,
        Nat.add_comm l.1.signals.length, ← made]
      exact (List.range'_succ ..).symm ▸ (List.range'_succ ..).symm ▸ rfl

/-- What building a machine gives. -/
theorem compile_ok {m : Machine} {domain : String} {u v : Supply} {c : Compiled}
    (h : (m.compile domain).run.run u = (.ok c, v)) :
    ∃ p : Parts, p.Built m u ∧ c.state = p.state ∧ c.resetCode = p.reset.2 ∧
      c.netlist = p.netlist m (m.domain.getD domain) := by
  unfold compile at h
  rw [run_bind, run_lift] at h
  cases initial : m.initial with
  | error fault =>
    rw [initial] at h
    cases congrArg Prod.fst h
  | ok reset =>
    obtain ⟨loads, made, targets, enables, nexts, numbered⟩ :=
      run_freshLoads m.name m.loads.zipIdx { u with nextSignal := u.nextSignal + 2 }
    simp only [initial, run_bind, run_map, run_liftState, Except.map, run_fresh, made] at h
    -- Up to here nothing depends on the names of the two state signals.
    generalize hs : Signal.withReset ⟨⟨u.nextSignal⟩, _, m.shape, 0, false⟩ reset.2 = state at h
    generalize hn : (⟨⟨u.nextSignal + 1⟩, _, m.shape, 0, false⟩ : Signal) = next at h
    cases plain : m.plainBodies next loads with
    | error fault =>
      simp only [plain] at h
      cases congrArg Prod.fst h
    | ok bodies =>
      simp only [plain, run_lift] at h
      have built : ∀ start : Option Signal, start.toList.map (·.id.index) =
            List.range' (u.nextSignal + 2 + (loads.flatMap Load.signals).length)
              start.toList.length →
          start.isSome = ((m.events .beforeEntering).contains reset.1 ||
            (m.events .afterEntering).contains reset.1) →
          (∀ s ∈ start, s.shape = .unsigned 1 ∧ s.resetValue = 1) →
          Parts.Built m u ⟨reset, state, next, loads, bodies, start⟩ := by
        intro start last marked marks
        refine ⟨initial, plain, by simpa using targets, enables, nexts, ?_, ?_, ?_, ?_, marked,
          marks⟩
        · rw [← hs]
          rfl
        · rw [← hs]
          exact m.shape.wrap_wrap reset.2
        · rw [← hn]
        · simp only [Parts.signals, List.map_cons, List.map_append, List.length_cons,
            List.length_append, List.range'_succ, numbered, last, ← hs, ← hn, Signal.withReset]
          rw [Nat.add_assoc u.nextSignal 1 1, List.range'_append_1]
      split at h
      next watched =>
        simp only [run_bind, run_liftState, run_fresh, run_pure] at h
        cases h
        refine ⟨_, built (some (.withReset ⟨⟨_⟩, s!"{m.name}_init", .unsigned 1, 0, false⟩ 1)) rfl
          watched.symm (fun s same => Option.some.inj same ▸ ⟨rfl, rfl⟩), rfl, rfl, ?_⟩
        simp only [List.append_assoc]
        rfl
      next unwatched =>
        simp only [run_bind, run_pure] at h
        cases h
        refine ⟨_, built none rfl (Bool.eq_false_iff.mpr unwatched).symm (by simp), rfl, rfl, ?_⟩
        simp only [List.append_assoc]
        rfl

theorem nodup_eraseDups {α : Type} [DecidableEq α] (xs : List α) : xs.eraseDups.Nodup := by
  match xs with
  | [] => simp
  | x :: xs =>
    rw [List.eraseDups_cons, List.nodup_cons]
    refine ⟨fun again => ?_, nodup_eraseDups _⟩
    simpa using List.mem_eraseDups.mp again
termination_by xs.length
decreasing_by exact Nat.lt_succ_of_le (List.length_filter_le ..)

namespace Parts.Built

variable {m : Machine} {u : Supply} {p : Parts} (built : p.Built m u)
include built

/-- New signals are younger than all that were there before. -/
theorem supply_le {s : Signal} (hs : s ∈ p.signals) : u.nextSignal ≤ s.id.index := by
  have listed : s.id.index ∈ p.signals.map (·.id.index) := List.mem_map_of_mem hs
  rw [built.numbered, List.mem_range'_1] at listed
  exact listed.1

theorem nodup : p.signals.Nodup :=
  List.Nodup.of_map (·.id.index) (built.numbered ▸ List.nodup_range')

theorem state_ne : p.state ≠ p.nextState ∧ ∀ l ∈ p.loads, p.state ∉ l.signals := by
  obtain ⟨own, -⟩ := List.nodup_cons.mp built.nodup
  simp only [List.mem_cons, List.mem_append, List.mem_flatMap, not_or, not_exists, not_and] at own
  exact ⟨own.1, own.2.1⟩

theorem nextState_ne : ∀ l ∈ p.loads, p.nextState ∉ l.signals := by
  obtain ⟨own, -⟩ := List.nodup_cons.mp (List.nodup_cons.mp built.nodup).2
  simp only [List.mem_append, List.mem_flatMap, not_or, not_exists, not_and] at own
  exact own.1

theorem loads_apart : (∀ l ∈ p.loads, l.enable ≠ l.next) ∧
    ∀ l ∈ p.loads, ∀ k ∈ p.loads, l ≠ k → ∀ s ∈ l.signals, s ∉ k.signals := by
  have rest := (List.nodup_cons.mp (List.nodup_cons.mp built.nodup).2).2
  obtain ⟨each, apart⟩ := List.nodup_flatMap.mp (List.Nodup.of_append_left rest)
  constructor
  · intro l hl
    simpa [Load.signals] using each l hl
  · intro l hl k hk differ s own other
    have symm : Std.Symm (Function.onFun List.Disjoint Load.signals) := ⟨fun _ _ h _ a b => h b a⟩
    exact apart.forall hl hk differ own other

theorem load_eq {l k : Load} (hl : l ∈ p.loads) (hk : k ∈ p.loads) (same : l.target = k.target) :
    l = k :=
  List.inj_on_of_nodup_map (built.targets ▸ nodup_eraseDups _) hl hk same

/-- A load is found by its target. -/
theorem find?_target {l : Load} (hl : l ∈ p.loads) :
    p.loads.find? (·.target = l.target) = some l := by
  cases found : p.loads.find? (·.target = l.target) with
  | none => exact absurd (decide_eq_true rfl) (List.find?_eq_none.mp found l hl)
  | some k =>
    have same : k.target = l.target := by simpa using List.find?_some found
    rw [built.load_eq (List.mem_of_find?_eq_some found) hl same]

end Parts.Built

end Machine

end Gateware
