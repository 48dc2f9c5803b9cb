import Gateware.Proofs.Machine.Events

/-!
# Delayed moves

A delayed move goes through states made up for it, one for each cycle that it takes longer than a
plain one. Their names are numbered through the whole machine, so that no two passages share a
state, and nothing that is asked of the machine later changes what they do.

## Main results

`delayed_takes_exactly`: from the state that a delay starts at, the state register goes through
states of no other delay and shows the target after exactly as many edges as asked for.

## Proof strategy

Each station of a passage holds one move and nothing else (`Assembled.passage_kept`, by induction on
the operations that follow). A state with one move is left by it on the next edge
(`Watched.next_of_move`), so the run is at the next station in every cycle.
-/
namespace Gateware.Machine

open Gateware.Stmt Gateware.Frame Gateware.Simulator

/-! ### Names -/

/-- The names of states that an operation is given. -/
def Operation.names : Operation → List String
  | act state _ => [state]
  | delayed state target _ => [state, target]
  | ongoing state _ => [state]
  | watch _ state _ => [state]

theorem Operation.state_mem_names (o : Operation) : o.state ∈ o.names := by
  cases o <;> exact .head _

theorem dollar_mem_madeUp (name : String) (k : Nat) : '$' ∈ (madeUp name k).toList := by
  change '$' ∈ (name ++ "$" ++ toString k).toList
  simp

/-- An operation declares the state that it is about and states with new numbers. -/
theorem Operation.mem_declares {o : Operation} {name x : String} {made : Nat}
    (h : x ∈ o.declares name made) :
    x = o.state ∨ ∃ k, made < k ∧ k ≤ made + o.between ∧ x = madeUp name k := by
  cases o with
  | delayed state target delay =>
    cases delay with
    | zero => cases h
    | succ delay => exact mem_stations.mp h
  | act | ongoing | watch => exact .inl (List.mem_singleton.mp h)

namespace Assembled

variable {ops : List Operation} {m : Machine} {u : Supply}

/-- States are those that operations are about and those that were made up. -/
theorem state_cases (h : Assembled ops m u) {x : String} (known : x ∈ m.states) :
    (∃ o ∈ ops, o.state = x) ∨ ∃ k, k ≤ m.anonymous ∧ x = madeUp m.name k := by
  induction h with
  | new _ bodies =>
    rw [states, bodies] at known
    cases known
  | @next ops o m next u v _ performs ih =>
    rw [performs.name_eq, performs.anonymous_eq]
    rcases performs.mem_states.mp known with old | new
    · rcases ih old with ⟨q, hq, same⟩ | ⟨k, made, same⟩
      · exact .inl ⟨q, List.mem_append_left _ hq, same⟩
      · exact .inr ⟨k, made.trans (Nat.le_add_right ..), same⟩
    · rcases Operation.mem_declares new with same | ⟨k, -, made, same⟩
      · exact .inl ⟨o, List.mem_append_right _ (.head _), same.symm⟩
      · exact .inr ⟨k, made, same⟩
  | later _ _ ih => exact ih known

/-- A passage stays as it was made: nobody else declares one of its states. -/
theorem passage_kept {pre post : List Operation} {entry target : String} {n : Nat}
    (h : Assembled (pre ++ .delayed entry target (n + 1) :: post) m u)
    (alone : ∀ o ∈ pre ++ post, o.state ≠ entry)
    (reserved : ∀ o ∈ pre ++ .delayed entry target (n + 1) :: post, ∀ k,
      o.state ≠ madeUp m.name k) {j : Nat} {x y : String}
    (here : (stations m.name (countBetween pre) entry n)[j]? = some x)
    (next : (stations m.name (countBetween pre) entry n ++ [target])[j + 1]? = some y) :
    (x, [.nextState y]) ∈ m.bodies := by
  generalize whole : pre ++ .delayed entry target (n + 1) :: post = ops at h reserved
  induction h generalizing post with
  | new => simp at whole
  | @next ops o m next' u v before performs ih =>
    rw [performs.name_eq] at reserved here next
    rcases List.eq_nil_or_concat' post with rfl | ⟨early, last, rfl⟩
    · -- The passage is being made, through states that are all new.
      obtain ⟨rfl, last⟩ := List.append_inj' whole rfl
      cases last
      rw [← before.anonymous_eq] at here next
      have own : ∀ k, entry ≠ madeUp m.name k :=
        reserved (.delayed entry target (n + 1)) (List.mem_append_right _ (.head _))
      cases performs
      refine mem_passage (fun z hz known => ?_) (nodup_stations own ..) here next
      rcases before.state_cases known with ⟨q, hq, same⟩ | ⟨i, old, same⟩
      · rcases mem_stations.mp hz with rfl | ⟨k, -, -, rfl⟩
        · exact alone q (List.mem_append_left _ hq) same
        · exact reserved q (List.mem_append_left _ hq) k same
      · rcases mem_stations.mp hz with rfl | ⟨k, new, -, rfl⟩
        · exact own i same
        · have := madeUp_injective _ same
          omega
    · -- A later operation declares other states.
      rw [← List.cons_append, ← List.append_assoc] at whole
      obtain ⟨rfl, last'⟩ := List.append_inj' whole rfl
      cases last'
      have kept := ih (fun q hq => alone q (by
          rw [← List.append_assoc]
          exact List.mem_append_left _ hq))
        here next rfl (fun q hq => reserved q (List.mem_append_left _ hq))
      refine (performs.mem_bodies_of_not_mem fun declared => ?_).mpr kept
      have station := mem_stations.mp (List.mem_of_getElem? here)
      have count : countBetween pre + n ≤ m.anonymous := by
        rw [before.anonymous_eq, countBetween_append, countBetween]
        exact Nat.add_le_add_left (Nat.le_add_right ..) _
      rcases Operation.mem_declares declared with same | ⟨k, new, -, same⟩
      · rcases station with rfl | ⟨i, -, -, rfl⟩
        · exact alone o (by simp) same.symm
        · exact reserved o (by simp) i same.symm
      · rcases station with rfl | ⟨i, -, made, rfl⟩
        · exact reserved (.delayed x target (n + 1)) (by simp) k same
        · have := madeUp_injective _ same
          omega
  | later _ _ ih => exact ih alone here next whole reserved

end Assembled

/-- An operation at another place has its numbers before or behind those of a passage. -/
theorem other_place {pre post pre' post' : List Operation} {o o' : Operation}
    (whole : pre ++ o :: post = pre' ++ o' :: post') (other : pre' ≠ pre) :
    o' ∈ pre ++ post ∧ (countBetween pre' + o'.between ≤ countBetween pre ∨
      countBetween pre + o.between ≤ countBetween pre') := by
  -- The other operation comes later, or it comes earlier.
  rcases List.append_eq_append_iff.mp whole with ⟨mid, rfl, rest⟩ | ⟨mid, rfl, rest⟩
  · cases mid with
    | nil => exact absurd (List.append_nil pre) other
    | cons q mid =>
      obtain ⟨rfl, rfl⟩ := List.cons.inj rest
      refine ⟨by simp, .inr ?_⟩
      rw [countBetween_append, countBetween]
      exact Nat.add_le_add_left (Nat.le_add_right ..) _
  · cases mid with
    | nil => exact absurd (List.append_nil pre').symm other
    | cons q mid =>
      obtain ⟨rfl, rfl⟩ := List.cons.inj rest
      refine ⟨by simp, .inl ?_⟩
      rw [countBetween_append, countBetween]
      exact Nat.add_le_add_left (Nat.le_add_right ..) _

/-- No other operation declares a state of a passage. -/
theorem station_not_declared {name entry target : String} {n : Nat}
    {pre post pre' post' : List Operation} {o : Operation}
    (whole : pre ++ .delayed entry target (n + 1) :: post = pre' ++ o :: post')
    (other : pre' ≠ pre) (alone : ∀ o ∈ pre ++ post, o.state ≠ entry)
    (reserved : ∀ o ∈ pre ++ .delayed entry target (n + 1) :: post, ∀ k, o.state ≠ madeUp name k)
    {x : String} (hx : x ∈ stations name (countBetween pre) entry n) :
    x ∉ o.declares name (countBetween pre') := by
  intro declared
  obtain ⟨among, numbers⟩ := other_place whole other
  have own := reserved (.delayed entry target (n + 1)) (by simp)
  have given : ∀ k, o.state ≠ madeUp name k := reserved o (by rw [whole]; simp)
  -- Either state is one that an operation is about, or it has a number of its own.
  rcases mem_stations.mp hx with rfl | ⟨i, low, high, rfl⟩
  · rcases Operation.mem_declares declared with same | ⟨k, -, -, same⟩
    · exact alone o among same.symm
    · exact own k same
  · rcases Operation.mem_declares declared with same | ⟨k, low', high', same⟩
    · exact given i same.symm
    · obtain rfl := madeUp_injective name same
      have between : (Operation.delayed entry target (n + 1)).between = n := rfl
      omega

/-! ### Runs -/

namespace Watched

variable {ops : List Operation} {m : Machine} {supply : Supply} {p : Parts}
  (h : Watched ops m supply p) {domain : String} {first : Simulator}
  (loaded : Loads (p.netlist m domain) first)
include h loaded

/-- A state with nothing but a move goes where the move leads. -/
theorem next_of_move {σ : SimState} (solved : Solved [] first.processes σ) {x y : String}
    (body : (x, [.nextState y]) ∈ m.bodies) {k : Nat} (known : m.code? x = some k)
    (shows : σ.value p.state = k) :
    ∃ k' : Nat, m.code? (m.resolve y) = some k' ∧ σ.value p.nextState = k' := by
  obtain ⟨i, place⟩ := List.mem_iff_getElem?.mp body
  obtain ⟨ts, place', plain⟩ := h.built.body_at place
  cases (h.built.code?_of_body h.assembled.distinct place').symm.trans known
  obtain ⟨writes, f, g, -, covers, -, -, run, values⟩ :=
    h.built.run_shown loaded h.assembled.distinct solved place' shows
  obtain ⟨k', target, next⟩ := (effect_move (ρ := σ.value) h.built ((replaceOf_leaf rfl).mp plain)
    run).moves y rfl
  have unwatched : p.nextState ∉ m.watchers := fun watcher =>
    h.built.not_old h.older (.tail _ (.head _)) (List.mem_append_right _ watcher)
  refine ⟨k', target, ?_⟩
  rw [values _ (covers _ (drivenBy_iff.mp ⟨.signal p.nextState, .head _, .head _⟩)) unwatched, next,
    wrap_code (code?_lt target)]

/-- A run leaves a state with nothing but a move to an unaliased state by that move. -/
theorem step_of_move {σ : Nat → SimState} (trace : p.Trace m first σ) {S : Nat → String}
    (follows : Follows m p σ S) {t : Nat} {y : String} (body : (S t, [.nextState y]) ∈ m.bodies)
    (real : m.aliases.get? y = none) : S (t + 1) = y := by
  obtain ⟨k, known, shows⟩ := follows.here t
  obtain ⟨i, target, next⟩ := h.next_of_move loaded (trace.solved t) body known shows
  obtain ⟨j, shown, value⟩ := follows.next t
  rw [resolve_of_unaliased real] at target
  obtain rfl : j = i := Int.ofNat_inj.mp (value.symm.trans next)
  exact code?_inj shown target

/-- A run that starts at a passage of unaliased states goes along it. -/
theorem along_passage {σ : Nat → SimState} (trace : p.Trace m first σ) {S : Nat → String}
    (follows : Follows m p σ S) {path : List String} {target : String}
    (moves : ∀ j x y, path[j]? = some x → (path ++ [target])[j + 1]? = some y →
      (x, [.nextState y]) ∈ m.bodies)
    (real : ∀ y ∈ path.tail ++ [target], m.aliases.get? y = none) (start : path[0]? = some (S 0)) :
    ∀ j ≤ path.length, (path ++ [target])[j]? = some (S j) := by
  intro j inside
  induction j with
  | zero =>
    rw [List.getElem?_append_left (List.getElem?_eq_some_iff.mp start).1]
    exact start
  | succ j ih =>
    have here : path[j]? = some (S j) := by
      rw [← ih (Nat.le_of_succ_le inside), List.getElem?_append_left inside]
    have last : j + 1 < (path ++ [target]).length := by
      rw [List.length_append, List.length_singleton]
      omega
    have next := List.getElem?_eq_getElem last
    generalize (path ++ [target])[j + 1] = y at next
    have ahead : y ∈ path.tail ++ [target] := by
      cases path with
      | nil => cases start
      | cons first path => exact List.mem_of_getElem? next
    rw [next, h.step_of_move loaded trace follows (moves j _ y here next) (real y ahead)]

end Watched

/-- Let a machine be put together with a delay of `n + 1` from `entry` to `target`, an unaliased
state, where no other operation is about `entry` and no state is named like those that are made up.
Whatever the inputs are, from a state in which the register shows `entry` it shows `target` after
`n + 1` edges and not before, and until then it shows states that no other delay goes through, and
after the first edge none that another delay leads to. -/
theorem delayed_takes_exactly (pre post : List Operation) (entry target : String) (n : Nat)
    (m : Machine) (domain : String) (supply rest : Supply) (c : Compiled)
    (assembled : Assembled (pre ++ .delayed entry target (n + 1) :: post) m supply)
    (alone : ∀ o ∈ pre ++ post, o.state ≠ entry) (apart : entry ≠ target)
    (real : m.aliases.get? target = none)
    (reserved : ∀ o ∈ pre ++ .delayed entry target (n + 1) :: post, ∀ x ∈ o.names, ∀ k,
      x ≠ madeUp m.name k)
    (compiled : (m.compile domain).run.run supply = (.ok c, rest))
    (mentioned : ∀ s ∈ m.mentioned, s.id.index < supply.nextSignal) (first sim : Simulator)
    (started : Starts c.netlist first)
    (design : sim = { first with state := sim.state, cycles := sim.cycles })
    (shows : m.Shows c sim.peek entry) (inputs : Nat → List (Signal × Int))
    (free : ∀ t, ∀ x ∈ inputs t, x.1 ∉ c.netlist.driven) :
    ∃ trace : Nat → Simulator,
      (∀ t, (cycle (m.domain.getD domain) inputs t).run.run sim = (.ok (), trace t)) ∧
      m.Shows c (trace (n + 1)).peek target ∧
      ∀ j ≤ n, ∃ x, (stations m.name (countBetween pre) entry n)[j]? = some x ∧
        m.Shows c (trace j).peek x ∧ ¬ m.Shows c (trace j).peek target ∧
        ∀ pre' post' e t delay,
          pre ++ .delayed entry target (n + 1) :: post = pre' ++ .delayed e t delay :: post' →
          pre' ≠ pre → x ∉ (Operation.delayed e t delay).declares m.name (countBetween pre') ∧
            (0 < j → x ≠ t) := by
  obtain ⟨p, built, state, -, netlist⟩ := compile_ok compiled
  rw [netlist] at started free
  obtain ⟨fresh, loaded, -, rfl⟩ := started
  have watched : Watched _ m supply p := ⟨assembled, built, mentioned⟩
  obtain ⟨σ, trace, kept, runs⟩ := Parts.exists_trace loaded free sim.state sim.cycles
  choose cycles run using runs
  obtain ⟨code, known, value⟩ := shows
  rw [state] at value
  -- Inputs do not reach the state register, so the run starts at the entry.
  obtain ⟨S, follows, initial⟩ := watched.exists_follows loaded trace known
    ((kept _ Parts.state_mem_assigned_sync).trans value)
  have states : ∀ o ∈ pre ++ .delayed entry target (n + 1) :: post, ∀ k,
      o.state ≠ madeUp m.name k := fun o ho k => reserved o ho _ o.state_mem_names k
  -- Neither the target nor a state that was made up is an alias.
  have unaliased : ∀ y ∈ (stations m.name (countBetween pre) entry n).tail ++ [target],
      m.aliases.get? y = none := by
    intro y hy
    rcases List.mem_append.mp hy with made | last
    · obtain ⟨k, -, rfl⟩ := List.mem_map.mp made
      cases found : m.aliases.get? (madeUp m.name k) with
      | none => rfl
      | some z => exact absurd rfl (states _ (assembled.aliased found) k)
    · rw [List.mem_singleton.mp last]
      exact real
  have along := watched.along_passage loaded trace follows
    (fun j x y here next => assembled.passage_kept alone states here next) unaliased
    (by rw [initial]; rfl)
  rw [length_stations] at along
  have shown : ∀ j, m.Shows c (σ j).value (S j) := by
    intro j
    obtain ⟨k, known, value⟩ := follows.here j
    exact ⟨k, known, by rw [state]; exact value⟩
  refine ⟨fun t => { fresh with state := σ t, cycles := cycles t }, fun t => ?_, ?_,
    fun j inside => ?_⟩
  · rw [design]
    exact run t
  · -- There are `n + 1` stations, so behind the last one is the target.
    have arrived := along (n + 1) (Nat.le_refl _)
    rw [List.getElem?_append_right (length_stations ..).le, length_stations,
      Nat.sub_self] at arrived
    obtain rfl : target = S (n + 1) := Option.some.inj arrived
    exact shown (n + 1)
  · have here := along j (Nat.le_succ_of_le inside)
    rw [List.getElem?_append_left (by rw [length_stations]; omega)] at here
    have station := List.mem_of_getElem? here
    refine ⟨S j, here, shown j, ?_, fun pre' post' e t delay whole other => ⟨?_, fun later => ?_⟩⟩
    · -- No station is the target: the first one is the entry, and the others were made up.
      rintro ⟨i, number, there⟩
      obtain ⟨k, known, value⟩ := follows.here j
      have same : k = i := Int.ofNat_inj.mp (value.symm.trans (by rw [← state]; exact there))
      have arrived := code?_inj (same ▸ known) number
      rcases mem_stations.mp station with first | ⟨k, -, -, made⟩
      · exact apart (first.symm.trans arrived)
      · exact reserved (.delayed entry target (n + 1)) (by simp) target (.tail _ (.head _)) k
          (arrived.symm.trans made)
    · exact station_not_declared whole other alone states station
    · -- Behind the first one all stations were made up.
      obtain ⟨i, rfl⟩ := Nat.exists_eq_succ_of_ne_zero (Nat.ne_of_gt later)
      rw [stations, List.getElem?_cons_succ] at here
      obtain ⟨k, -, made⟩ := List.mem_map.mp (List.mem_of_getElem? here)
      rw [← made]
      intro same
      exact reserved (.delayed e t delay) (by rw [whole]; simp) t (.tail _ (.head _)) k same.symm

open Sample

namespace Sample

/-- Go out by a delay of three and come back by a delay of two. -/
def trip : (List Operation × Machine) × Supply :=
  (({ name := "trip" } : Machine).assemble [
    .act "home" [.branch request [.nextState "out"] []], .delayed "out" "away" 3,
    .act "away" [.nextState "back"], .delayed "back" "home" 2]).run ⟨10, 0⟩

end Sample

theorem trip_trial : trip.1.2.trial trip.2 (fun c _ => decide (request ∉ c.netlist.driven)) =
    true := by
  decide +kernel

theorem trip_takes_three :
    ∃ (c : Compiled) (rest : Supply) (first : Simulator) (trace : Nat → Simulator),
      (trip.1.2.compile "sys").run.run trip.2 = (.ok c, rest) ∧ start c.netlist = .ok first ∧
      (∀ t, (cycle "sys" (fun t => [(request, t)]) t).run.run
        { first with state := first.state.insert c.state 1 } = (.ok (), trace t)) ∧
      trip.1.2.Shows c (trace 0).peek "out" ∧ trip.1.2.Shows c (trace 1).peek "trip$1" ∧
      trip.1.2.Shows c (trace 2).peek "trip$2" ∧ ¬ trip.1.2.Shows c (trace 2).peek "away" ∧
      trip.1.2.Shows c (trace 3).peek "away" := by
  obtain ⟨c, rest, first, compiled, started, checked⟩ := of_trial trip_trial
  have unread := of_decide_eq_true checked
  have names : ∀ o ∈ [.act "home" [.branch request [.nextState "out"] []]] ++
      .delayed "out" "away" 3 :: [.act "away" [.nextState "back"], .delayed "back" "home" 2],
      ∀ x ∈ Operation.names o, '$' ∉ x.toList := by
    decide +kernel
  have assembled : Assembled trip.1.1 trip.1.2 trip.2 := assembled_assemble ..
  have register : SimState.value (first.state.insert c.state 1) c.state = 1 :=
    SimState.value_of_get? (OrdMap.get?_insert_self ..)
  obtain ⟨trace, run, arrived, stations⟩ := delayed_takes_exactly
    [.act "home" [.branch request [.nextState "out"] []]]
    [.act "away" [.nextState "back"], .delayed "back" "home" 2] "out" "away" 2 trip.1.2 "sys" trip.2
    rest c assembled (by decide +kernel) (by decide) rfl
    (fun o ho x hx k same => names o ho x hx (same ▸ dollar_mem_madeUp _ k)) compiled
    (by decide +kernel) first { first with state := first.state.insert c.state 1 }
    (starts_of_start started) rfl
    ⟨1, rfl, register⟩ (fun t => [(request, t)]) (fun t x hx => List.mem_singleton.mp hx ▸ unread)
  obtain ⟨x, at_start, shows₀, -⟩ := stations 0 (by decide)
  obtain ⟨y, after_one, shows₁, -⟩ := stations 1 (by decide)
  obtain ⟨z, after_two, shows₂, not_yet, -⟩ := stations 2 (by decide)
  cases at_start
  cases after_one
  cases after_two
  exact ⟨c, rest, first, trace, compiled, started, run, shows₀, shows₁, shows₂, not_yet, arrived⟩

end Gateware.Machine
