import Gateware.Proofs.Machine.Watching

/-!
# Events along a run

In every cycle the state register shows a state, and the next state is the one that it shows in the
next cycle. Signals that watch events tell what these two states are, and so they follow the run:
the look-ahead ones in the cycle itself, the registered ones a cycle later.

## Main results

`events_follow_states`: from power-up, for any inputs, every signal that watches a state or an event
has the value that the states of the run give it, in every cycle.

## Proof strategy

A run is a sequence of settled states with a step lemma (`Parts.Trace`). What an edge expression
says about one cycle is a statement about the states of this cycle and the next (`Follows.edge`),
and signals have the values of their edges (`Watched`). The flag of the first cycle is the one
register that makes a difference at the start.
-/
namespace Gateware.Machine

open Gateware.Stmt Gateware.Frame Gateware.Simulator

theorem place_of_code? {m : Machine} {s : String} {k : Nat} (h : m.code? s = some k) :
    m.states[k]? = some s := by
  obtain ⟨inside, here, -⟩ := List.findIdx?_eq_some_iff_getElem.mp h
  exact List.getElem?_eq_some_iff.mpr ⟨inside, of_decide_eq_true here⟩

/-- No two states have one number. -/
theorem code?_inj {m : Machine} {r s : String} {k : Nat} (hr : m.code? r = some k)
    (hs : m.code? s = some k) : r = s :=
  Option.some.inj ((place_of_code? hr).symm.trans (place_of_code? hs))

theorem exists_code {m : Machine} {s : String} (hs : s ∈ m.states) : ∃ k, m.code? s = some k := by
  cases found : m.code? s with
  | some k => exact ⟨k, rfl⟩
  | none =>
    have differ := List.findIdx?_eq_none_iff.mp found s hs
    simp at differ

/-- The states that a run goes through: the register shows the one, the next state is the other. -/
structure Follows (m : Machine) (p : Parts) (σ : Nat → SimState) (S : Nat → String) : Prop where
  here : ∀ t, ∃ k : Nat, m.code? (S t) = some k ∧ (σ t).value p.state = k
  next : ∀ t, ∃ k : Nat, m.code? (S (t + 1)) = some k ∧ (σ t).value p.nextState = k

/-- What an edge expression says about a cycle of a run. -/
def Occurs (p : Parts) (S : Nat → String) (event : Event) (s : String) (t : Nat) : Prop :=
  if event.enters then S t ≠ s ∧ S (t + 1) = s ∨ t = 0 ∧ s = p.reset.1 ∧ p.start.isSome
  else S t = s ∧ S (t + 1) ≠ s

instance (p : Parts) (S : Nat → String) (event : Event) (s : String) (t : Nat) :
    Decidable (Occurs p S event s t) :=
  inferInstanceAs (Decidable (if event.enters then
    S t ≠ s ∧ S (t + 1) = s ∨ t = 0 ∧ s = p.reset.1 ∧ p.start.isSome
    else S t = s ∧ S (t + 1) ≠ s))

/-- A comparison with a state's number tells whether a signal shows that state. -/
theorem flags_code {m : Machine} {ρ : Valuation} {x : Signal} {r s : String} {j k : Nat}
    (shown : m.code? r = some j) (value : ρ x = j) (known : m.code? s = some k) :
    (Expr.eq x (m.coded ((m.code? s).getD 0))).Flags ρ (r = s) := by
  refine ⟨rfl, ?_⟩
  have number : (m.coded k).eval ρ = .ok (k : Int) := by
    change Except.ok (m.shape.wrap (m.shape.wrap k)) = _
    rw [Shape.wrap_wrap, wrap_code (code?_lt known)]
  have compared : (Expr.eq x (m.coded ((m.code? s).getD 0))).eval ρ =
      .ok ((Shape.unsigned 1).wrap ((decide ((j : Int) = k)).toNat : Int)) := by
    rw [known, Option.getD_some, Expr.eq, Expr.eval, number, Expr.eval, value]
    rfl
  rw [compared]
  by_cases same : r = s
  · subst same
    cases shown.symm.trans known
    simp only [decide_true, if_true]
    rfl
  · have differ : (j : Int) ≠ k := by
      rw [Ne, Int.ofNat_inj]
      rintro rfl
      exact same (code?_inj shown known)
    simp only [differ, same, decide_false, if_false]
    rfl

namespace Follows

variable {m : Machine} {p : Parts} {σ : Nat → SimState} {S : Nat → String}
  (follows : Follows m p σ S) {s : String} {k : Nat} (known : m.code? s = some k) (t : Nat)
include follows known

theorem isIn : ((p.edges m).isIn s).Flags (σ t).value (S t = s) := by
  obtain ⟨j, shown, value⟩ := follows.here t
  exact flags_code shown value known

theorem goesTo : ((p.edges m).goesTo s).Flags (σ t).value (S (t + 1) = s) := by
  obtain ⟨j, shown, value⟩ := follows.next t
  exact flags_code shown value known

/-- An edge expression says what the states of the run say, given the flag of the first cycle. -/
theorem edge (event : Event)
    (flag : ∀ x ∈ p.start, (Expr.signal x).Flags (σ t).value (t = 0)) :
    ((p.edges m).edge event s).Flags (σ t).value (Occurs p S event s t) := by
  have inside := follows.isIn known t
  have ahead := follows.goesTo known t
  cases enters : event.enters with
  | false =>
    simp only [Edges.edge, Occurs, enters, Bool.false_eq_true, if_false]
    exact inside.and ahead.invert
  | true =>
    simp only [Edges.edge, Occurs, enters, if_true]
    -- Only for the reset state, and only if there is a flag, starting counts as entering.
    have crossing := inside.invert.and ahead
    have start : (p.edges m).start = p.start := rfl
    cases marked : p.start with
    | none =>
      simp only [Edges.entering, start, marked]
      exact crossing.congr (by simp)
    | some x =>
      simp only [Edges.entering, start, marked]
      split
      next own => exact (crossing.or (flag x marked)).congr (by simp [show s = p.reset.1 from own])
      next other =>
        exact crossing.congr (by simp [show s ≠ p.reset.1 from other])

end Follows

namespace Watched

variable {ops : List Operation} {m : Machine} {supply : Supply} {p : Parts}
  (h : Watched ops m supply p) {domain : String} {first : Simulator}
  (loaded : Loads (p.netlist m domain) first) {σ : Nat → SimState} (trace : p.Trace m first σ)
include h trace

include loaded in
/-- A run goes through states. -/
theorem exists_follows {s : String} {k : Nat} (known : m.code? s = some k)
    (shows : (σ 0).value p.state = k) : ∃ S, Follows m p σ S ∧ S 0 = s := by
  have next := fun t => h.built.next_isCode loaded h.older h.assembled.distinct (trace.solved t)
  choose name code listed value using next
  -- In a later cycle the register shows where the cycle before was going.
  refine ⟨fun t => Nat.rec s (fun t _ => name t) t, ⟨fun t => ?_, fun t => ?_⟩, rfl⟩
  · cases t with
    | zero => exact ⟨k, known, shows⟩
    | succ t =>
      refine ⟨code t, listed t, ?_⟩
      rw [trace.state_next h.built h.older, value t, wrap_code (code?_lt (listed t))]
  · exact ⟨code t, listed t, value t⟩

/-- The flag of the first cycle is set in the first cycle and never again. -/
theorem flag_value {x : Signal} (hx : x ∈ p.start) (power : (σ 0).value x = x.resetValue)
    (t : Nat) : (Expr.signal x).Flags (σ t).value (t = 0) := by
  obtain ⟨shape, reset⟩ := h.built.marks x hx
  refine ⟨shape, congrArg Except.ok ?_⟩
  cases t with
  | zero => rw [power, reset, if_pos rfl]
  | succ t =>
    rw [if_neg (Nat.succ_ne_zero t)]
    obtain ⟨g, run, registers⟩ := trace.edge t
    have listed : x ∈ p.start.toList := by rw [Option.mem_def.mp hx]; exact .head _
    have new : x ∈ p.signals := .tail _ (.tail _ (List.mem_append_right _ listed))
    have member : .assign x (.int 0) ∈ p.sync m :=
      .tail _ (List.mem_append_right _ (List.mem_append_left _
        (List.mem_map.mpr ⟨x, listed, rfl⟩)))
    have driven := drivenBy_targetsOf.mpr ⟨_, member, .signal x, .head _, .head _⟩
    -- Of all that is clocked only its own assignment drives the flag.
    have copies : ∀ u ∈ p.sync m, DrivenBy u.targets x → u = .assign x (.int 0) := by
      intro u hu driven
      rcases List.mem_cons.mp hu with rfl | hu
      · obtain ⟨t, ht, hx⟩ := driven
        obtain rfl := List.mem_singleton.mp ht
        obtain rfl := List.mem_singleton.mp hx
        exact absurd (List.mem_append_right _ listed)
          fun again => (List.nodup_cons.mp h.built.nodup).1 (.tail _ again)
      · rcases List.mem_append.mp hu with load | rest
        · obtain ⟨l, hl, target⟩ := Parts.drivenBy_registers
            (drivenBy_targetsOf.mpr ⟨u, load, driven⟩)
          exact absurd new (h.built.register_old (Parts.Built.older_driven h.older) hl target)
        · rcases List.mem_append.mp rest with start | after
          · obtain ⟨y, hy, rfl⟩ := List.mem_map.mp start
            obtain ⟨t, ht, hx⟩ := driven
            obtain rfl := List.mem_singleton.mp ht
            obtain rfl := List.mem_singleton.mp hx
            rfl
          · have watcher := Parts.drivenBy_after (drivenBy_targetsOf.mpr ⟨u, after, driven⟩)
            exact absurd (List.mem_append_right _ watcher) (h.built.not_old h.older new)
    obtain ⟨v, value, latest⟩ := latest_of_copies member copies (fun _ _ => .inl rfl) run
    rw [registers x (drivenBy_iff.mp driven), latest, ← Except.ok.inj value, shape]
    rfl

variable {S : Nat → String} (follows : Follows m p σ S)
  (flag : ∀ x ∈ p.start, (σ 0).value x = x.resetValue) {event : Event} {s r : String} {w : Signal}
  (asked : .watch event s w ∈ ops) (resolved : m.resolve s = r) {k : Nat}
  (known : m.code? r = some k)
include follows flag asked resolved known

include loaded in
theorem before_occurs (early : event.early = true) (t : Nat) :
    (σ t).value w = if Occurs p S event r t then 1 else 0 := by
  obtain ⟨v, value, same⟩ := h.before_value loaded early asked (trace.solved t)
  rw [resolved, (follows.edge known t event fun x hx => h.flag_value trace hx (flag x hx) t).value]
    at value
  rw [same, (h.assembled.handed asked rfl).1, ← Except.ok.inj value]
  split <;> rfl

theorem after_occurs (late : event.early = false) (t : Nat) :
    (σ (t + 1)).value w = if Occurs p S event r t then 1 else 0 := by
  obtain ⟨g, run, registers⟩ := trace.edge t
  obtain ⟨v, value, same⟩ := h.after_value late asked run
  rw [resolved, (follows.edge known t event fun x hx => h.flag_value trace hx (flag x hx) t).value]
    at value
  rw [registers w (h.after_assigned late asked), same, (h.assembled.handed asked rfl).1,
    ← Except.ok.inj value]
  split <;> rfl

omit trace follows flag asked resolved known in
/-- There is a flag of the first cycle if the entering of the reset state is watched. -/
theorem start_isSome_iff : p.start.isSome = true ↔
    ∃ event w, event.enters = true ∧ .watch event p.reset.1 w ∈ ops := by
  have listed : ∀ event, (m.events event).contains p.reset.1 = true ↔
      ∃ w, .watch event p.reset.1 w ∈ ops := by
    intro event
    rw [OrdMap.contains, Option.isSome_iff_exists]
    exact exists_congr fun w => h.assembled.watched
  rw [h.built.marked, Bool.or_eq_true, listed, listed]
  constructor
  · rintro (⟨w, asked⟩ | ⟨w, asked⟩)
    · exact ⟨.beforeEntering, w, rfl, asked⟩
    · exact ⟨.afterEntering, w, rfl, asked⟩
  · rintro ⟨event, w, enters, asked⟩
    cases event with
    | beforeEntering => exact .inl ⟨w, asked⟩
    | afterEntering => exact .inr ⟨w, asked⟩
    | beforeLeaving | afterLeaving => cases enters

end Watched

theorem resolve_of_unaliased {m : Machine} {s : String} (h : m.aliases.get? s = none) :
    m.resolve s = s := by
  simp only [resolve, follow, h]

/-- A machine that starts runs without end from its reset state, and all its registers start with
their reset values. -/
theorem power_up {ops : List Operation} {m : Machine} {domain : String} {supply rest : Supply}
    {c : Compiled} (assembled : Assembled ops m supply)
    (compiled : (m.compile domain).run.run supply = (.ok c, rest))
    (mentioned : ∀ s ∈ m.mentioned, s.id.index < supply.nextSignal) {first : Simulator}
    (started : Starts c.netlist first) {inputs : Nat → List (Signal × Int)}
    (free : ∀ t, ∀ x ∈ inputs t, x.1 ∉ c.netlist.driven) :
    ∃ (p : Parts) (fresh : Simulator) (σ : Nat → SimState) (cycles : Nat → OrdMap String Nat)
      (S : Nat → String), Watched ops m supply p ∧
      Loads (p.netlist m (m.domain.getD domain)) fresh ∧ p.Trace m fresh σ ∧ Follows m p σ S ∧
      S 0 = p.reset.1 ∧ c.state = p.state ∧
      (∀ x ∈ assigned (p.sync m), (σ 0).value x = x.resetValue) ∧
      ∀ t, (cycle (m.domain.getD domain) inputs t).run.run first =
        (.ok (), { fresh with state := σ t, cycles := cycles t }) := by
  obtain ⟨p, built, state, -, netlist⟩ := compile_ok compiled
  rw [netlist] at started free
  obtain ⟨fresh, loaded, -, rfl⟩ := started
  have watched : Watched ops m supply p := ⟨assembled, built, mentioned⟩
  obtain ⟨σ, trace, kept, runs⟩ := Parts.exists_trace loaded free fresh.settled.2 fresh.cycles
  choose cycles run using runs
  have power : ∀ x ∈ assigned (p.sync m), (σ 0).value x = x.resetValue := fun x hx =>
    (kept x hx).trans (Parts.start_register loaded hx)
  -- The state register is one of the registers that start with their reset values.
  have shows : (σ 0).value p.state = p.reset.2 := by
    rw [power _ Parts.state_mem_assigned_sync, built.stateReset,
      wrap_code (code?_lt built.initial_code)]
  obtain ⟨S, follows, initial⟩ := watched.exists_follows loaded trace built.initial_code shows
  exact ⟨p, fresh, σ, cycles, S, watched, loaded, trace, follows, initial, state, power, run⟩

theorem Parts.start_mem_assigned_sync {m : Machine} {p : Parts} {x : Signal} (hx : x ∈ p.start) :
    x ∈ assigned (p.sync m) := by
  have listed : x ∈ p.start.toList := by rw [Option.mem_def.mp hx]; exact .head _
  exact drivenBy_iff.mp (drivenBy_targetsOf.mpr ⟨.assign x (.int 0), .tail _
    (List.mem_append_right _ (List.mem_append_left _ (List.mem_map.mpr ⟨x, listed, rfl⟩))),
    .signal x, .head _, .head _⟩)

/-- A state is entered on the edge after a cycle, the first one also by starting. -/
def Enters (S : Nat → String) (s : String) (t : Nat) : Prop :=
  S t ≠ s ∧ S (t + 1) = s ∨ t = 0 ∧ s = S 0

/-- A state is left on the edge after a cycle. -/
def Leaves (S : Nat → String) (s : String) (t : Nat) : Prop := S t = s ∧ S (t + 1) ≠ s

instance (S : Nat → String) (s : String) (t : Nat) : Decidable (Enters S s t) :=
  inferInstanceAs (Decidable (_ ∨ _))

instance (S : Nat → String) (s : String) (t : Nat) : Decidable (Leaves S s t) :=
  inferInstanceAs (Decidable (_ ∧ _))

/-- Run a machine from power-up with any inputs. In every cycle the register shows a state, in the
first one the reset state, and the signals that were handed out for a state tell in which cycles the
machine is in it, is about to enter or leave it, and has just entered or left it. -/
theorem events_follow_states (ops : List Operation) (m : Machine) (domain : String)
    (supply rest : Supply) (c : Compiled) (assembled : Assembled ops m supply)
    (compiled : (m.compile domain).run.run supply = (.ok c, rest))
    (mentioned : ∀ s ∈ m.mentioned, s.id.index < supply.nextSignal) (first : Simulator)
    (started : Starts c.netlist first) (inputs : Nat → List (Signal × Int))
    (free : ∀ t, ∀ x ∈ inputs t, x.1 ∉ c.netlist.driven) :
    ∃ (trace : Nat → Simulator) (S : Nat → String),
      (∀ t, (cycle (m.domain.getD domain) inputs t).run.run first = (.ok (), trace t)) ∧
      (∀ t, m.Shows c (trace t).peek (S t)) ∧ (∃ code, m.initial = .ok (S 0, code)) ∧
      ∀ s w, m.aliases.get? s = none →
        (.ongoing s w ∈ ops → Untouched ops w →
          ∀ t, (trace t).peek w = if S t = s then 1 else 0) ∧
        (.watch .beforeEntering s w ∈ ops →
          ∀ t, (trace t).peek w = if Enters S s t then 1 else 0) ∧
        (.watch .beforeLeaving s w ∈ ops →
          ∀ t, (trace t).peek w = if Leaves S s t then 1 else 0) ∧
        (.watch .afterEntering s w ∈ ops → (trace 0).peek w = 0 ∧
          ∀ t, (trace (t + 1)).peek w = if Enters S s t then 1 else 0) ∧
        (.watch .afterLeaving s w ∈ ops → (trace 0).peek w = 0 ∧
          ∀ t, (trace (t + 1)).peek w = if Leaves S s t then 1 else 0) := by
  obtain ⟨p, fresh, σ, cycles, S, watched, loaded, trace, follows, initial, state, power, run⟩ :=
    power_up assembled compiled mentioned started free
  have flag : ∀ x ∈ p.start, (σ 0).value x = x.resetValue := fun x hx =>
    power x (Parts.start_mem_assigned_sync hx)
  refine ⟨fun t => { fresh with state := σ t, cycles := cycles t }, S, run, fun t => ?_, ?_, ?_⟩
  · obtain ⟨k, known, value⟩ := follows.here t
    exact ⟨k, known, by rw [state]; exact value⟩
  · exact ⟨p.reset.2, by rw [initial]; exact watched.built.initial⟩
  intro s w unaliased
  have resolved := resolve_of_unaliased unaliased
  -- For a state that is watched the flag is there whenever it matters.
  have entered : ∀ {event : Event}, event.enters = true → .watch event s w ∈ ops →
      ∀ t, Occurs p S event s t ↔ Enters S s t := by
    intro event enters asked t
    rw [Occurs, if_pos enters, Enters, initial]
    refine or_congr_right (and_congr_right fun _ => ⟨And.left, fun own => ⟨own, ?_⟩⟩)
    exact watched.start_isSome_iff.mpr ⟨event, w, enters, own ▸ asked⟩
  have left : ∀ {event : Event}, event.enters = false →
      ∀ t, Occurs p S event s t ↔ Leaves S s t := by
    intro event leaves t
    rw [Occurs, leaves]
    exact Iff.rfl
  -- A signal for the moment before the edge is up to date, one for the moment after it a cycle
  -- late.
  have before : ∀ {event : Event} (P : Nat → Prop) [DecidablePred P], event.early = true →
      .watch event s w ∈ ops → (∀ t, Occurs p S event s t ↔ P t) →
      ∀ t, (σ t).value w = if P t then 1 else 0 := by
    intro event P _ early asked same t
    obtain ⟨k, known⟩ := exists_code (assembled.declared asked)
    rw [watched.before_occurs loaded trace follows flag asked resolved known early t]
    simp only [same]
  have after : ∀ {event : Event} (P : Nat → Prop) [DecidablePred P], event.early = false →
      .watch event s w ∈ ops → (∀ t, Occurs p S event s t ↔ P t) →
      (σ 0).value w = 0 ∧ ∀ t, (σ (t + 1)).value w = if P t then 1 else 0 := by
    intro event P _ late asked same
    obtain ⟨k, known⟩ := exists_code (assembled.declared asked)
    refine ⟨?_, fun t => ?_⟩
    · rw [power w (watched.after_assigned late asked), watched.resetValue_eq asked rfl]
    · rw [watched.after_occurs trace follows flag asked resolved known late t]
      simp only [same]
  refine ⟨fun asked untouched t => ?_, fun asked => before _ rfl asked (entered rfl asked),
    fun asked => before _ rfl asked (left rfl), fun asked => after _ rfl asked (entered rfl asked),
    fun asked => after _ rfl asked (left rfl)⟩
  obtain ⟨k, known, value⟩ := follows.here t
  exact watched.ongoing_value loaded asked untouched (trace.solved t) known value

open Sample

open Signal (wire)

namespace Sample

/-- A door that opens on request for one cycle. It is watched closing and just having closed, and a
light is on while it is open. -/
def door : (List Operation × Machine) × Supply :=
  (({ name := "door" } : Machine).assemble [
    .act "shut" [.branch request [.nextState "open"] []], .act "open" [.nextState "shut"],
    .watch .beforeEntering "shut", .watch .afterLeaving "open", .ongoing "open"]).run ⟨10, 0⟩

end Sample

theorem door_trial : door.1.2.trial door.2 (fun c _ => decide (request ∉ c.netlist.driven)) =
    true := by
  decide +kernel

theorem door_events :
    ∃ (c : Compiled) (rest : Supply) (first : Simulator) (trace : Nat → Simulator)
      (S : Nat → String), (door.1.2.compile "sys").run.run door.2 = (.ok c, rest) ∧
      start c.netlist = .ok first ∧
      (∀ t, (cycle "sys" (fun t => [(request, t)]) t).run.run first = (.ok (), trace t)) ∧
      S 0 = "shut" ∧ (trace 0).peek (wire 10 "door_before_entering_shut" 1) = 1 ∧
      ∀ t, (trace t).peek (wire 12 "door_ongoing_open" 1) = (if S t = "open" then 1 else 0) ∧
        (trace (t + 1)).peek (wire 11 "door_after_leaving_open" 1) =
          if Leaves S "open" t then 1 else 0 := by
  obtain ⟨c, rest, first, compiled, started, checked⟩ := of_trial door_trial
  have unread := of_decide_eq_true checked
  obtain ⟨trace, S, run, -, ⟨code, initial⟩, signals⟩ := events_follow_states door.1.1 door.1.2
    "sys" door.2 rest c (assembled_assemble ..) compiled (by decide +kernel) first
    (starts_of_start started)
    (fun t => [(request, t)]) (fun t x hx => List.mem_singleton.mp hx ▸ unread)
  have names : door.1.1 = [.act "shut" [.branch request [.nextState "open"] []],
      .act "open" [.nextState "shut"],
      .watch .beforeEntering "shut" (wire 10 "door_before_entering_shut" 1),
      .watch .afterLeaving "open" (wire 11 "door_after_leaving_open" 1),
      .ongoing "open" (wire 12 "door_ongoing_open" 1)] := rfl
  rw [names] at signals
  have shut : S 0 = "shut" := (congrArg Prod.fst (Except.ok.inj (initial.symm.trans rfl))).trans rfl
  refine ⟨c, rest, first, trace, S, compiled, started, run, shut, ?_, fun t => ⟨?_, ?_⟩⟩
  · rw [(signals "shut" (wire 10 "door_before_entering_shut" 1) rfl).2.1 (by simp) 0, if_pos]
    exact .inr ⟨rfl, shut.symm⟩
  · refine (signals "open" (wire 12 "door_ongoing_open" 1) rfl).1 (by simp) ?_ t
    -- Neither state has anything to assign.
    intro state ss asked driven
    obtain ⟨u, hu, -⟩ := driven
    simp only [List.mem_cons, Operation.act.injEq, reduceCtorEq, List.not_mem_nil,
      or_false] at asked
    rcases asked with ⟨-, rfl⟩ | ⟨-, rfl⟩ <;> cases hu
  · exact ((signals "open" (wire 11 "door_after_leaving_open" 1) rfl).2.2.2.2 (by simp)).2 t

end Gateware.Machine
