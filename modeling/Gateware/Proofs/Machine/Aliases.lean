import Gateware.Proofs.Machine.Events
import Mathlib.Data.Finset.Card

/-!
# Names that stand for other states

An alias leads to a state, maybe by way of other aliases. Moves follow them, and so do the signals
that watch events, but not everything does: the signal for the time in a state is set by the state
of the very name that was asked for, and the flag of the first cycle is made only if somebody
watches the reset state under its own name.

## Main results

* `resolve_reaches_end`: aliases are followed to their end, however many there are, and into the
  cycle if there is no end.
* `aliases_share_events`: what an alias has in common with its state along a run, and what not.
-/
namespace Gateware.Machine

open Gateware.Stmt Gateware.Frame Gateware.Simulator

/-- One name stands for another one. -/
def IsAlias (m : Machine) (x y : String) : Prop := m.aliases.get? x = some y

/-- A number of aliases lead from a name to `t`. -/
inductive Leads (m : Machine) (t : String) : String → Nat → Prop
  | refl : Leads m t t 0
  | step {x y : String} {n : Nat} (first : m.IsAlias x y) (rest : Leads m t y n) :
    Leads m t x (n + 1)

/-- The name that a name stands for, itself if it is no alias. -/
def successor (m : Machine) (x : String) : String := (m.aliases.get? x).getD x

theorem successor_of_none {m : Machine} {x : String} (real : m.aliases.get? x = none) :
    m.successor x = x := by
  rw [successor, real, Option.getD_none]

theorem successor_of_isAlias {m : Machine} {x y : String} (h : m.IsAlias x y) :
    m.successor x = y := by
  rw [successor, h, Option.getD_some]

theorem follow_eq_iterate (m : Machine) (x : String) (steps : Nat) :
    follow m.aliases x steps = m.successor^[steps] x := by
  induction steps generalizing x with
  | zero => rfl
  | succ steps ih =>
    rw [follow, Function.iterate_succ_apply]
    cases known : m.aliases.get? x with
    | some y =>
      rw [successor_of_isAlias known]
      exact ih y
    | none =>
      have fixed := successor_of_none known
      rw [fixed, Function.iterate_fixed fixed]

/-! ### Names that come up again -/

section Repeated

variable {m : Machine} {x : String}

/-- If more names in a row are aliases than there are aliases, one comes up again. -/
theorem exists_repeated
    (aliased : ∀ k ≤ m.aliases.entries.length, (m.aliases.get? (m.successor^[k] x)).isSome = true) :
    ∃ i j, i < j ∧ j ≤ m.aliases.entries.length ∧ m.successor^[i] x = m.successor^[j] x := by
  have count : m.aliases.keys.toList.toFinset.card <
      (Finset.range (m.aliases.entries.length + 1)).card := by
    have bound := List.toFinset_card_le m.aliases.keys.toList
    rw [OrdMap.keys, List.length_map] at bound
    rw [Finset.card_range]
    exact Nat.lt_succ_of_le bound
  have listed : Set.MapsTo (fun k => m.successor^[k] x)
      (Finset.range (m.aliases.entries.length + 1)) m.aliases.keys.toList.toFinset := by
    intro k hk
    have within : k ≤ m.aliases.entries.length := Nat.le_of_lt_succ (Finset.mem_range.mp hk)
    exact List.mem_toFinset.mpr (OrdMap.mem_keys.mpr (aliased k within))
  obtain ⟨i, hi, j, hj, differ, same⟩ :=
    Finset.exists_ne_map_eq_of_card_lt_of_maps_to count listed
  rw [Finset.mem_range] at hi hj
  rcases Nat.lt_or_gt_of_ne differ with lt | gt
  · exact ⟨i, j, lt, by omega, same⟩
  · exact ⟨j, i, gt, by omega, same.symm⟩

/-- What follows a name that comes up again comes up again as well. -/
theorem iterate_repeated {i j n : Nat} (same : m.successor^[i] x = m.successor^[j] x)
    (later : j ≤ n) : m.successor^[n] x = m.successor^[n - j + i] x := by
  obtain ⟨k, rfl⟩ : ∃ k, n = k + j := ⟨n - j, by omega⟩
  rw [Nat.add_sub_cancel, Function.iterate_add_apply, ← same, ← Function.iterate_add_apply]

end Repeated

/-! ### Ends -/

namespace Leads

variable {m : Machine} {x t : String} {n : Nat}

theorem chain (h : Leads m t x n) : Relation.ReflTransGen m.IsAlias x t := by
  induction h with
  | refl => exact .refl
  | step first _ ih => exact .head first ih

theorem iterate (h : Leads m t x n) : m.successor^[n] x = t := by
  induction h with
  | refl => rfl
  | step first _ ih => rw [Function.iterate_succ_apply, successor_of_isAlias first, ih]

theorem aliased (h : Leads m t x n) {k : Nat} (before : k < n) :
    (m.aliases.get? (m.successor^[k] x)).isSome = true := by
  induction h generalizing k with
  | refl => exact absurd before (Nat.not_lt_zero k)
  | step first _ ih =>
    cases k with
    | zero => exact Option.isSome_of_eq_some first
    | succ k =>
      rw [Function.iterate_succ_apply, successor_of_isAlias first]
      exact ih (Nat.lt_of_succ_lt_succ before)

/-- No way to the end is longer than there are aliases. -/
theorem length_le (h : Leads m t x n) (real : m.aliases.get? t = none) :
    n ≤ m.aliases.entries.length := by
  by_contra longer
  obtain ⟨i, j, lt, bound, same⟩ := exists_repeated fun k _ => h.aliased (k := k) (by omega)
  -- The end would have come up before, where it was an alias.
  have earlier := h.aliased (k := n - j + i) (by omega)
  rw [← iterate_repeated same (by omega), h.iterate, real] at earlier
  cases earlier

theorem resolve_eq (h : Leads m t x n) (real : m.aliases.get? t = none) : m.resolve x = t := by
  have enough := h.length_le real
  obtain ⟨k, split⟩ : ∃ k, m.aliases.entries.length + 1 = k + n :=
    ⟨m.aliases.entries.length + 1 - n, by omega⟩
  rw [resolve, follow_eq_iterate, split, Function.iterate_add_apply, h.iterate]
  exact Function.iterate_fixed (successor_of_none real) k

end Leads

theorem exists_leads {m : Machine} {x t : String} (chain : Relation.ReflTransGen m.IsAlias x t) :
    ∃ n, Leads m t x n := by
  induction chain using Relation.ReflTransGen.head_induction_on with
  | refl => exact ⟨0, .refl⟩
  | head first _ ih =>
    obtain ⟨n, rest⟩ := ih
    exact ⟨n + 1, .step first rest⟩

/-- A name whose aliases end in a state stands for that state. -/
theorem resolve_of_chain {m : Machine} {x t : String} (chain : Relation.TransGen m.IsAlias x t)
    (real : m.aliases.get? t = none) : m.resolve x = t := by
  obtain ⟨n, leads⟩ := exists_leads chain.to_reflTransGen
  exact leads.resolve_eq real

/-- An alias is no state that stands for itself. -/
theorem ne_of_chain {m : Machine} {x t : String} (chain : Relation.TransGen m.IsAlias x t)
    (real : m.aliases.get? t = none) : x ≠ t := by
  rintro rfl
  obtain ⟨y, first, -⟩ := Relation.TransGen.head'_iff.mp chain
  cases real.symm.trans first

/-! ### Cycles -/

/-- From this name on there is always one more alias. -/
def Endless (m : Machine) (x : String) : Prop :=
  ∀ y, Relation.ReflTransGen m.IsAlias x y → (m.aliases.get? y).isSome = true

namespace Endless

variable {m : Machine} {x : String} {n : Nat} (endless : m.Endless x)
include endless

theorem isAlias : m.IsAlias x (m.successor x) := by
  obtain ⟨y, known⟩ := Option.isSome_iff_exists.mp (endless x .refl)
  rw [successor_of_isAlias known]
  exact known

theorem of_chain {y : String} (chain : Relation.ReflTransGen m.IsAlias x y) : m.Endless y :=
  fun z rest => endless z (chain.trans rest)

theorem leads (n : Nat) : Leads m (m.successor^[n] x) x n := by
  induction n generalizing x with
  | zero => exact .refl
  | succ n ih => exact .step endless.isAlias (ih (endless.of_chain (.single endless.isAlias)))

/-- After as many steps as there are aliases one is on the cycle. -/
theorem on_cycle (enough : m.aliases.entries.length ≤ n) :
    Relation.TransGen m.IsAlias (m.successor^[n] x) (m.successor^[n] x) := by
  obtain ⟨i, j, lt, bound, same⟩ := exists_repeated fun k _ => endless _ (endless.leads k).chain
  obtain ⟨p, rfl⟩ : ∃ p, j = i + (p + 1) := ⟨j - i - 1, by omega⟩
  -- From the repeated name on, the names come up again after `p + 1` steps.
  have period : m.successor^[p + 1] (m.successor^[n] x) = m.successor^[n] x := by
    rw [← Function.iterate_add_apply, iterate_repeated same (by omega)]
    congr 1
    omega
  have around := (endless.of_chain (endless.leads n).chain).leads (p + 1)
  rw [period] at around
  cases around with
  | step first rest => exact .head' first rest.chain

end Endless

/-- If the aliases of a name come to an end, the name stands for the one at the end, which is no
more steps away than there are aliases. Otherwise it stands for a name on the cycle that they run
into, at most one step further away. -/
theorem resolve_reaches_end (m : Machine) (x : String) :
    (∀ t, Relation.ReflTransGen m.IsAlias x t → m.aliases.get? t = none →
      m.resolve x = t ∧ ∃ n ≤ m.aliases.entries.length, Leads m t x n) ∧
    (m.Endless x → Relation.TransGen m.IsAlias (m.resolve x) (m.resolve x) ∧
      ∃ n ≤ m.aliases.entries.length + 1, Leads m (m.resolve x) x n) := by
  constructor
  · intro t chain real
    obtain ⟨n, leads⟩ := exists_leads chain
    exact ⟨leads.resolve_eq real, n, leads.length_le real, leads⟩
  · intro endless
    rw [resolve, follow_eq_iterate]
    exact ⟨endless.on_cycle (Nat.le_succ _), _, Nat.le_refl _, endless.leads _⟩

namespace Sample

/-- Two names on top of a state, and one that leads into a circle of two. -/
def detours : Machine where
  name := "detours"
  aliases := .ofList [("again", "start"), ("start", "rest"), ("out", "left"), ("left", "right"),
    ("right", "left")]

end Sample

open Sample

theorem detours_endless : detours.Endless "out" := by
  intro y chain
  have near : y = "out" ∨ y = "left" ∨ y = "right" := by
    induction chain with
    | refl => exact .inl rfl
    | tail _ next ih =>
      rcases ih with rfl | rfl | rfl
      · exact .inr (.inl (Option.some.inj next).symm)
      · exact .inr (.inr (Option.some.inj next).symm)
      · exact .inr (.inl (Option.some.inj next).symm)
  rcases near with rfl | rfl | rfl <;> rfl

theorem detours_resolved :
    detours.resolve "again" = "rest" ∧
    Relation.TransGen detours.IsAlias (detours.resolve "out") (detours.resolve "out") ∧
    ∃ n ≤ 6, Leads detours (detours.resolve "out") "out" n := by
  have real : detours.aliases.get? "rest" = none := rfl
  have chain : Relation.ReflTransGen detours.IsAlias "again" "rest" :=
    .tail (.single (show IsAlias _ _ "start" from rfl)) rfl
  exact ⟨((resolve_reaches_end detours "again").1 "rest" chain real).1,
    (resolve_reaches_end detours "out").2 detours_endless⟩

/-! ### Aliases along a run -/

/-- Run a machine in which `a` is an alias of the state `t` from power-up, with any inputs. Signals
for an event of the two agree in every cycle. If `t` is the reset state, a signal for the moment
before entering `a` is set in the first cycle if and only if some signal watches `t` itself being
entered. Signals for the time in the two agree in exactly those cycles in which the register shows
neither name. -/
theorem aliases_share_events (ops : List Operation) (m : Machine) (domain : String)
    (supply rest : Supply) (c : Compiled) (assembled : Assembled ops m supply)
    (compiled : (m.compile domain).run.run supply = (.ok c, rest))
    (mentioned : ∀ s ∈ m.mentioned, s.id.index < supply.nextSignal) (first : Simulator)
    (started : Starts c.netlist first) (inputs : Nat → List (Signal × Int))
    (free : ∀ k, ∀ x ∈ inputs k, x.1 ∉ c.netlist.driven) (a t : String)
    (chain : Relation.TransGen m.IsAlias a t) (real : m.aliases.get? t = none)
    (declared : t ∈ m.states) :
    ∃ (trace : Nat → Simulator) (S : Nat → String),
      (∀ k, (cycle (m.domain.getD domain) inputs k).run.run first = (.ok (), trace k)) ∧
      (∀ k, m.Shows c (trace k).peek (S k)) ∧ (∃ code, m.initial = .ok (S 0, code)) ∧
      (∀ event w v, .watch event a w ∈ ops → .watch event t v ∈ ops →
        ∀ k, (trace k).peek w = (trace k).peek v) ∧
      (∀ w, .watch .beforeEntering a w ∈ ops → S 0 = t →
        ((trace 0).peek w = 1 ↔ ∃ event v, event.enters = true ∧ .watch event t v ∈ ops)) ∧
      ∀ w v, .ongoing a w ∈ ops → .ongoing t v ∈ ops → Untouched ops w → Untouched ops v →
        ∀ k, (trace k).peek w = (trace k).peek v ↔ S k ≠ a ∧ S k ≠ t := by
  obtain ⟨p, fresh, σ, cycles, S, watched, loaded, trace, follows, initial, state, power, run⟩ :=
    power_up assembled compiled mentioned started free
  have flag : ∀ x ∈ p.start, (σ 0).value x = x.resetValue := fun x hx =>
    power x (Parts.start_mem_assigned_sync hx)
  have resolved := resolve_of_chain chain real
  have itself := resolve_of_unaliased real
  obtain ⟨code, known⟩ := exists_code declared
  refine ⟨fun k => { fresh with state := σ k, cycles := cycles k }, S, run, fun k => ?_, ?_, ?_, ?_,
    ?_⟩
  · obtain ⟨code, known, value⟩ := follows.here k
    exact ⟨code, known, by rw [state]; exact value⟩
  · exact ⟨p.reset.2, by rw [initial]; exact watched.built.initial⟩
  · -- Both signals have the edge of the state that the two names stand for.
    intro event w v asked asked' k
    change (σ k).value w = (σ k).value v
    cases early : event.early with
    | true =>
      rw [watched.before_occurs loaded trace follows flag asked resolved known early,
        watched.before_occurs loaded trace follows flag asked' itself known early]
    | false =>
      cases k with
      | zero =>
        rw [power w (watched.after_assigned early asked), watched.resetValue_eq asked rfl,
          power v (watched.after_assigned early asked'), watched.resetValue_eq asked' rfl]
      | succ k =>
        rw [watched.after_occurs trace follows flag asked resolved known early,
          watched.after_occurs trace follows flag asked' itself known early]
  · intro w asked own
    change (σ 0).value w = 1 ↔ _
    rw [watched.before_occurs loaded trace follows flag asked resolved known rfl 0]
    -- In the first cycle nothing but the flag tells that the state is being entered.
    have only : Occurs p S .beforeEntering t 0 ↔ p.start.isSome = true := by
      change S 0 ≠ t ∧ _ ∨ 0 = 0 ∧ t = p.reset.1 ∧ p.start.isSome = true ↔ _
      simp [own, ← initial]
    have told : (if Occurs p S .beforeEntering t 0 then (1 : Int) else 0) = 1 ↔
        Occurs p S .beforeEntering t 0 := by
      split <;> simp_all
    rw [told, only, watched.start_isSome_iff, ← initial, own]
  · intro w v asked asked' untouched untouched' k
    obtain ⟨number, shown, value⟩ := follows.here k
    change (σ k).value w = (σ k).value v ↔ _
    rw [watched.ongoing_value loaded asked untouched (trace.solved k) shown value,
      watched.ongoing_value loaded asked' untouched' (trace.solved k) shown value]
    -- The register shows at most one of the two names, and sets the signal for this one only.
    have differ := ne_of_chain chain real
    by_cases here : S k = a
    · simp [here, differ]
    · by_cases there : S k = t
      · simp [there, differ.symm]
      · simp [here, there]

open Signal (wire)

namespace Sample

/-- Rest and work in turns, with two more names for resting, one on top of the other. -/
def shift : (List Operation × Machine) × Supply :=
  (({ name := "shift" } : Machine).assemble [
    .act "rest" [.nextState "work"], .act "work" [.nextState "again"], .delayed "again" "start" 0,
    .delayed "start" "rest" 0, .watch .beforeEntering "again", .watch .beforeEntering "rest",
    .ongoing "again", .ongoing "rest"]).run ⟨10, 0⟩

end Sample

theorem shift_trial : shift.1.2.trial shift.2 (fun c _ => decide (request ∉ c.netlist.driven)) =
    true := by
  decide +kernel

theorem shift_shares_events :
    ∃ (c : Compiled) (rest : Supply) (first : Simulator) (trace : Nat → Simulator)
      (S : Nat → String), (shift.1.2.compile "sys").run.run shift.2 = (.ok c, rest) ∧
      start c.netlist = .ok first ∧
      (∀ k, (cycle "sys" (fun k => [(request, k)]) k).run.run first = (.ok (), trace k)) ∧
      S 0 = "rest" ∧ (trace 0).peek (wire 10 "shift_before_entering_again" 1) = 1 ∧
      ∀ k, (trace k).peek (wire 10 "shift_before_entering_again" 1) =
          (trace k).peek (wire 11 "shift_before_entering_rest" 1) ∧
        ((trace k).peek (wire 12 "shift_ongoing_again" 1) =
          (trace k).peek (wire 13 "shift_ongoing_rest" 1) ↔ S k ≠ "again" ∧ S k ≠ "rest") := by
  obtain ⟨c, rest, first, compiled, started, checked⟩ := of_trial shift_trial
  have unread := of_decide_eq_true checked
  obtain ⟨trace, S, run, -, ⟨code, initial⟩, events, entering, ongoing⟩ := aliases_share_events
    shift.1.1 shift.1.2 "sys" shift.2 rest c (assembled_assemble ..) compiled (by decide +kernel)
    first (starts_of_start started) (fun k => [(request, k)])
    (fun k x hx => List.mem_singleton.mp hx ▸ unread)
    "again" "rest" (.tail (.single (show IsAlias _ _ "start" from rfl)) rfl) rfl (by decide +kernel)
  have names : shift.1.1 = [.act "rest" [.nextState "work"], .act "work" [.nextState "again"],
      .delayed "again" "start" 0, .delayed "start" "rest" 0,
      .watch .beforeEntering "again" (wire 10 "shift_before_entering_again" 1),
      .watch .beforeEntering "rest" (wire 11 "shift_before_entering_rest" 1),
      .ongoing "again" (wire 12 "shift_ongoing_again" 1),
      .ongoing "rest" (wire 13 "shift_ongoing_rest" 1)] := rfl
  have untouched : ∀ w, Untouched shift.1.1 w := by
    intro w state ss asked driven
    obtain ⟨u, hu, -⟩ := driven
    simp only [names, List.mem_cons, Operation.act.injEq, reduceCtorEq, List.not_mem_nil,
      or_false] at asked
    rcases asked with ⟨-, rfl⟩ | ⟨-, rfl⟩ <;> cases hu
  have resting : S 0 = "rest" :=
    (congrArg Prod.fst (Except.ok.inj (initial.symm.trans rfl))).trans rfl
  rw [names] at events entering ongoing untouched
  refine ⟨c, rest, first, trace, S, compiled, started, run, resting, ?_, fun k => ⟨?_, ?_⟩⟩
  · refine (entering _ (by simp) resting).mpr
      ⟨.beforeEntering, wire 11 "shift_before_entering_rest" 1, rfl, by simp⟩
  · exact events .beforeEntering _ _ (by simp) (by simp) k
  · exact ongoing _ _ (by simp) (by simp) (untouched _) (untouched _) k

namespace Sample

/-- Rest and work in turns, with one more name for resting, and the reset state is only watched
under that name. -/
def idle : (List Operation × Machine) × Supply :=
  (({ name := "idle" } : Machine).assemble [
    .act "rest" [.nextState "work"], .act "work" [.nextState "start"], .delayed "start" "rest" 0,
    .watch .beforeEntering "start", .ongoing "start", .ongoing "rest"]).run ⟨10, 0⟩

end Sample

theorem idle_trial : idle.1.2.trial idle.2 (fun c sim => decide
    (sim.peek c.state = 0 ∧ sim.peek (wire 10 "idle_before_entering_start" 1) = 0 ∧
      sim.peek (wire 11 "idle_ongoing_start" 1) = 0 ∧
      sim.peek (wire 12 "idle_ongoing_rest" 1) = 1)) = true := by
  decide +kernel

/-- In the first cycle the machine is in the reset state, but an alias of it reads neither as being
entered nor as ongoing. -/
theorem alias_unnoticed :
    ∃ (c : Compiled) (rest : Supply) (first : Simulator),
      (idle.1.2.compile "sys").run.run idle.2 = (.ok c, rest) ∧ start c.netlist = .ok first ∧
      idle.1.2.resolve "start" = "rest" ∧ idle.1.2.initial = .ok ("rest", 0) ∧
      idle.1.2.Shows c first.peek "rest" ∧
      .watch .beforeEntering "start" (wire 10 "idle_before_entering_start" 1) ∈ idle.1.1 ∧
      .ongoing "start" (wire 11 "idle_ongoing_start" 1) ∈ idle.1.1 ∧
      .ongoing "rest" (wire 12 "idle_ongoing_rest" 1) ∈ idle.1.1 ∧
      first.peek (wire 10 "idle_before_entering_start" 1) = 0 ∧
      first.peek (wire 11 "idle_ongoing_start" 1) ≠
        first.peek (wire 12 "idle_ongoing_rest" 1) := by
  obtain ⟨c, rest, first, compiled, started, checked⟩ := of_trial idle_trial
  obtain ⟨state, entering, other, own⟩ := of_decide_eq_true checked
  have names : idle.1.1 = [.act "rest" [.nextState "work"], .act "work" [.nextState "start"],
      .delayed "start" "rest" 0,
      .watch .beforeEntering "start" (wire 10 "idle_before_entering_start" 1),
      .ongoing "start" (wire 11 "idle_ongoing_start" 1),
      .ongoing "rest" (wire 12 "idle_ongoing_rest" 1)] := rfl
  refine ⟨c, rest, first, compiled, started, rfl, rfl, ⟨0, rfl, state⟩, ?_, ?_, ?_, entering, ?_⟩
  · simp [names]
  · simp [names]
  · simp [names]
  · rw [other, own]
    decide

end Gateware.Machine
