import Gateware.Proofs.Machine.Selection

/-!
# How a machine is put together

A machine is put together by operations, some of which hand out a signal. What a state does, which
names are aliases and which signals watch what can all be read off the list of operations.

Every fact about the whole list is an induction over it, with one lemma that says what a single
operation changes.
-/
namespace Gateware.Machine

open Gateware.Stmt

/-! ### Doing more in a state -/

theorem declare_eq (m : Machine) (state : String) :
    m.declare state = { m with bodies := (m.declare state).bodies } := by
  rw [declare]
  split <;> rfl

theorem act_eq (m : Machine) (state : String) (ss : List Stmt) :
    m.act state ss = { m with bodies := (m.act state ss).bodies } := by
  simp only [act, declare]
  split <;> rfl

theorem mem_declare {m : Machine} {state x : String} {body : List Stmt} :
    (x, body) ∈ (m.declare state).bodies ↔
      (x, body) ∈ m.bodies ∨ state ∉ m.states ∧ x = state ∧ body = [] := by
  rw [declare]
  split
  next known => simp [known]
  next unknown => simp [unknown]

theorem mem_states {m : Machine} {x : String} : x ∈ m.states ↔ ∃ body, (x, body) ∈ m.bodies := by
  simp [states]

theorem mem_states_declare {m : Machine} {state x : String} :
    x ∈ (m.declare state).states ↔ x ∈ m.states ∨ x = state := by
  rw [declare]
  split
  next known =>
    constructor
    · exact .inl
    · rintro (there | rfl)
      · exact there
      · exact known
  next => simp [states]

theorem mem_states_act {m : Machine} {state x : String} {ss : List Stmt} :
    x ∈ (m.act state ss).states ↔ x ∈ m.states ∨ x = state := by
  rw [states_act, mem_states_declare]

/-- Doing more in a state adds to its statements and leaves the other states alone. -/
theorem mem_act {m : Machine} {state x : String} {ss body : List Stmt} :
    (x, body) ∈ (m.act state ss).bodies ↔
      x ≠ state ∧ (x, body) ∈ m.bodies ∨
        x = state ∧ ∃ old, (state, old) ∈ (m.declare state).bodies ∧ body = old ++ ss := by
  simp only [act, List.mem_map]
  constructor
  -- A state is declared before it does more, so what it did before may be nothing.
  · rintro ⟨⟨y, old⟩, known, same⟩
    split at same
    next here =>
      obtain ⟨rfl, rfl⟩ := Prod.mk.inj same
      obtain rfl : y = state := here
      exact .inr ⟨rfl, old, known, rfl⟩
    next other =>
      obtain ⟨rfl, rfl⟩ := Prod.mk.inj same
      exact .inl ⟨other, (mem_declare.mp known).resolve_right fun new => other new.2.1⟩
  · rintro (⟨other, known⟩ | ⟨rfl, old, known, rfl⟩)
    · exact ⟨(x, body), mem_declare.mpr (.inl known), if_neg other⟩
    · exact ⟨(x, old), known, if_pos rfl⟩

theorem mem_act_of_ne {m : Machine} {state x : String} {ss body : List Stmt} (other : x ≠ state) :
    (x, body) ∈ (m.act state ss).bodies ↔ (x, body) ∈ m.bodies := by
  rw [mem_act]
  simp [other]

/-- A new state does what it is told first. -/
theorem mem_act_new {m : Machine} {state : String} {ss : List Stmt} (new : state ∉ m.states) :
    (state, ss) ∈ (m.act state ss).bodies :=
  mem_act.mpr (.inr ⟨rfl, [], mem_declare.mpr (.inr ⟨new, rfl, rfl⟩), rfl⟩)

/-- What a state does after more was added is old or was added to it. -/
theorem mem_body_act {m : Machine} {state x : String} {ss body : List Stmt}
    (known : (x, body) ∈ (m.act state ss).bodies) {s : Stmt} (hs : s ∈ body) :
    (∃ old, (x, old) ∈ m.bodies ∧ s ∈ old) ∨ x = state ∧ s ∈ ss := by
  rcases mem_act.mp known with ⟨-, there⟩ | ⟨rfl, old, there, rfl⟩
  · exact .inl ⟨body, there, hs⟩
  · rcases List.mem_append.mp hs with early | added
    · rcases mem_declare.mp there with there | ⟨-, -, rfl⟩
      · exact .inl ⟨old, there, early⟩
      · cases early
    · exact .inr ⟨rfl, added⟩

/-- Everything that is done in a machine's states is also done in another one's. -/
def Kept (m n : Machine) : Prop :=
  ∀ x old, (x, old) ∈ m.bodies → ∃ body, (x, body) ∈ n.bodies ∧ old ⊆ body

theorem Kept.refl (m : Machine) : Kept m m := fun _ old known => ⟨old, known, fun _ => id⟩

theorem Kept.trans {l m n : Machine} (first : Kept l m) (second : Kept m n) : Kept l n := by
  intro x old known
  obtain ⟨body, here, sub⟩ := first x old known
  obtain ⟨body', there, sub'⟩ := second x body here
  exact ⟨body', there, List.Subset.trans sub sub'⟩

theorem kept_declare (m : Machine) (state : String) : Kept m (m.declare state) :=
  fun _ old known => ⟨old, mem_declare.mpr (.inl known), fun _ => id⟩

theorem kept_act (m : Machine) (state : String) (ss : List Stmt) : Kept m (m.act state ss) := by
  intro x old known
  by_cases here : x = state
  · subst here
    exact ⟨old ++ ss, mem_act.mpr (.inr ⟨rfl, old, mem_declare.mpr (.inl known), rfl⟩),
      List.subset_append_left ..⟩
  · exact ⟨old, (mem_act_of_ne here).mpr known, fun _ => id⟩

/-! ### Passages -/

/-- The name of a state that is made up. -/
def madeUp (name : String) (k : Nat) : String := s!"{name}${k}"

theorem madeUp_injective (name : String) : Function.Injective (madeUp name) :=
  fun _ _ same => eq_of_append_toString same

/-- The states that a passage goes through, after `made` states have been made up. -/
def stations (name : String) (made : Nat) (state : String) (between : Nat) : List String :=
  state :: (List.range' (made + 1) between).map (madeUp name)

theorem mem_stations {name : String} {made between : Nat} {state x : String} :
    x ∈ stations name made state between ↔
      x = state ∨ ∃ k, made < k ∧ k ≤ made + between ∧ x = madeUp name k := by
  simp only [stations, List.mem_cons, List.mem_map, List.mem_range'_1]
  refine or_congr_right ⟨?_, ?_⟩
  · rintro ⟨k, ⟨low, high⟩, rfl⟩
    exact ⟨k, low, by omega, rfl⟩
  · rintro ⟨k, low, high, rfl⟩
    exact ⟨k, ⟨low, by omega⟩, rfl⟩

theorem nodup_stations {name state : String} (named : ∀ k, state ≠ madeUp name k)
    (made between : Nat) : (stations name made state between).Nodup := by
  refine List.nodup_cons.mpr ⟨fun again => ?_,
    List.Nodup.map (madeUp_injective name) List.nodup_range'⟩
  obtain ⟨k, -, same⟩ := List.mem_map.mp again
  exact named k same.symm

theorem length_stations (name : String) (made : Nat) (state : String) (between : Nat) :
    (stations name made state between).length = between + 1 := by
  simp [stations]

theorem stations_succ (name : String) (made : Nat) (state : String) (between : Nat) :
    stations name made state (between + 1) =
      state :: stations name (made + 1) (madeUp name (made + 1)) between := by
  rw [stations, stations, List.range'_succ, List.map_cons]

/-- The machine with one more state made up, to which `state` moves. -/
def extended (m : Machine) (state : String) : Machine :=
  { m with anonymous := m.anonymous + 1 }.act state [.nextState (madeUp m.name (m.anonymous + 1))]

theorem extended_eq (m : Machine) (state : String) :
    m.extended state =
      { m with bodies := (m.extended state).bodies, anonymous := m.anonymous + 1 } :=
  act_eq ..

theorem passage_succ (m : Machine) (state target : String) (between : Nat) :
    m.passage state target (between + 1) =
      (m.extended state).passage (madeUp m.name (m.anonymous + 1)) target between := rfl

/-- A passage changes what states do and makes up states, and nothing else. -/
theorem passage_eq (m : Machine) (state target : String) (between : Nat) :
    m.passage state target between =
      { m with
        bodies := (m.passage state target between).bodies
        anonymous := m.anonymous + between } := by
  induction between generalizing m state with
  | zero => exact act_eq ..
  | succ between ih =>
    rw [passage_succ, ih, extended_eq]
    simp only [Nat.add_assoc, Nat.add_comm 1]

/-- The states that a passage from `state` goes through. -/
abbrev ahead (m : Machine) (state : String) (between : Nat) : List String :=
  stations m.name m.anonymous state between

theorem ahead_succ (m : Machine) (state : String) (between : Nat) :
    m.ahead state (between + 1) =
      state :: (m.extended state).ahead (madeUp m.name (m.anonymous + 1)) between := by
  rw [ahead, stations_succ, ahead, extended_eq]

/-- Other states do what they did. -/
theorem mem_passage_of_not_mem {m : Machine} {state target x : String} {between : Nat}
    (away : x ∉ m.ahead state between) {body : List Stmt} :
    (x, body) ∈ (m.passage state target between).bodies ↔ (x, body) ∈ m.bodies := by
  induction between generalizing m state with
  | zero => exact mem_act_of_ne fun same => away (same ▸ .head _)
  | succ between ih =>
    rw [ahead_succ, List.mem_cons, not_or] at away
    rw [passage_succ, ih away.2]
    exact mem_act_of_ne away.1

theorem mem_states_passage {m : Machine} {state target x : String} {between : Nat} :
    x ∈ (m.passage state target between).states ↔ x ∈ m.states ∨ x ∈ m.ahead state between := by
  induction between generalizing m state with
  | zero =>
    rw [passage, mem_states_act, ahead, stations]
    simp
  | succ between ih =>
    rw [passage_succ, ih, ahead_succ, List.mem_cons, ← or_assoc, extended, mem_states_act]
    rfl

theorem kept_passage (m : Machine) (state target : String) (between : Nat) :
    Kept m (m.passage state target between) := by
  induction between generalizing m state with
  | zero => exact kept_act m state _
  | succ between ih =>
    have first : Kept m (m.extended state) :=
      kept_act { m with anonymous := m.anonymous + 1 } state _
    exact first.trans (ih _ _)

/-- A passage adds moves only. -/
theorem mem_body_passage {m : Machine} {state target x : String} {between : Nat} {body : List Stmt}
    (known : (x, body) ∈ (m.passage state target between).bodies) {s : Stmt} (hs : s ∈ body) :
    (∃ old, (x, old) ∈ m.bodies ∧ s ∈ old) ∨ ∃ y, s = .nextState y := by
  induction between generalizing m state body with
  | zero =>
    rcases mem_body_act known hs with old | ⟨-, new⟩
    · exact .inl old
    · exact .inr ⟨target, List.mem_singleton.mp new⟩
  | succ between ih =>
    rcases ih known hs with ⟨old, known, hs⟩ | move
    · rcases mem_body_act known hs with old | ⟨-, new⟩
      · exact .inl old
      · exact .inr ⟨_, List.mem_singleton.mp new⟩
    · exact .inr move

/-- A passage through new states moves from each to the next one, and from the last one to the
target. -/
theorem mem_passage {m : Machine} {state target : String} {between : Nat}
    (new : ∀ x ∈ m.ahead state between, x ∉ m.states) (distinct : (m.ahead state between).Nodup)
    {j : Nat} {x y : String} (here : (m.ahead state between)[j]? = some x)
    (next : (m.ahead state between ++ [target])[j + 1]? = some y) :
    (x, [.nextState y]) ∈ (m.passage state target between).bodies := by
  induction between generalizing m state j with
  | zero =>
    cases j with
    | zero =>
      obtain rfl : state = x := by simpa [stations] using here
      obtain rfl : target = y := by simpa [stations] using next
      exact mem_act_new (new _ (.head _))
    | succ j => simp [stations] at here
  | succ between ih =>
    rw [ahead_succ] at new distinct here next
    obtain ⟨away, distinct⟩ := List.nodup_cons.mp distinct
    rw [passage_succ]
    cases j with
    | zero =>
      obtain rfl : state = x := by simpa using here
      obtain rfl : madeUp m.name (m.anonymous + 1) = y := by simpa [stations] using next
      -- The rest of the passage does not come back to the state that it leaves.
      exact (mem_passage_of_not_mem away).mpr
        (mem_act_new (m := { m with anonymous := m.anonymous + 1 }) (new _ (.head _)))
    | succ j =>
      -- The rest is a passage of the extended machine, which has one state more, the first one.
      refine ih (fun z hz known => ?_) distinct (by simpa using here) (by simpa using next)
      rcases mem_states_act.mp known with known | rfl
      · exact new z (.tail _ hz) known
      · exact away hz

/-! ### Operations -/

/-- What can be asked of a machine under construction, with the signal that is handed out. -/
inductive Operation
  | act (state : String) (ss : List Stmt)
  | delayed (state target : String) (delay : Nat)
  | ongoing (state : String) (signal : Signal)
  | watch (event : Event) (state : String) (signal : Signal)

namespace Operation

/-- The state that is asked about. -/
def state : Operation → String
  | act state _ => state
  | delayed state _ _ => state
  | ongoing state _ => state
  | watch _ state _ => state

/-- The signal that is handed out. -/
def signal? : Operation → Option Signal
  | ongoing _ signal => some signal
  | watch _ _ signal => some signal
  | _ => none

/-- How many states are made up. -/
def between : Operation → Nat
  | delayed _ _ delay => delay - 1
  | _ => 0

/-- The states that are declared, after `made` states have been made up. -/
def declares (name : String) (made : Nat) : Operation → List String
  | delayed _ _ 0 => []
  | delayed state _ (delay + 1) => stations name made state delay
  | o => [o.state]

end Operation

/-- What an operation does. -/
inductive Performs : Operation → Machine → Supply → Machine → Supply → Prop
  | act {m : Machine} {u : Supply} (state : String) (ss : List Stmt) :
    Performs (.act state ss) m u (m.act state ss) u
  | delayed {m : Machine} {u : Supply} (state target : String) (delay : Nat) :
    Performs (.delayed state target delay) m u (m.delayed state target delay) u
  | ongoing {m next : Machine} {u v : Supply} {w : Signal} (state : String)
    (handed : (m.ongoing state).run u = ((w, next), v)) : Performs (.ongoing state w) m u next v
  | watch {m next : Machine} {u v : Supply} {w : Signal} (event : Event) (state : String)
    (handed : (m.watch event state).run u = ((w, next), v)) :
    Performs (.watch event state w) m u next v

/-- A signal as it is handed out. -/
structure Handed (u : Supply) (w : Signal) (v : Supply) : Prop where
  index : w.id.index = u.nextSignal
  shape : w.shape = .unsigned 1
  reset : w.reset = 0
  supply : v.nextSignal = u.nextSignal + 1

theorem ongoing_ok {m next : Machine} {u v : Supply} {state : String} {w : Signal}
    (handed : (m.ongoing state).run u = ((w, next), v)) :
    Handed u w v ∧ next = m.act state [.assign w (.int 1)] := by
  cases handed
  exact ⟨⟨rfl, rfl, rfl, rfl⟩, rfl⟩

/-- Watching an event once more gives the same signal again. -/
theorem watch_ok {m next : Machine} {u v : Supply} {event : Event} {state : String} {w : Signal}
    (handed : (m.watch event state).run u = ((w, next), v)) :
    ((m.events event).get? state = some w ∧ v = u ∨ Handed u w v) ∧
      ∃ events, next = { m.declare state with events } ∧ ∀ e s x,
        (events e).get? s = some x ↔
          (m.events e).get? s = some x ∨ e = event ∧ s = state ∧ x = w := by
  rw [Machine.watch] at handed
  have same : (m.declare state).events = m.events := by rw [declare_eq]
  simp only [same] at handed
  cases found : (m.events event).get? state with
  | some s =>
    -- The event is watched already.
    simp only [found] at handed
    cases handed
    refine ⟨.inl ⟨rfl, rfl⟩, m.events, by rw [declare_eq], fun e s x => ⟨.inl, ?_⟩⟩
    rintro (known | ⟨rfl, rfl, rfl⟩)
    · exact known
    · exact found
  | none =>
    simp only [found] at handed
    cases handed
    refine ⟨.inr ⟨rfl, rfl, rfl, rfl⟩, _, rfl, fun e s x => ?_⟩
    by_cases here : e = event
    · subst here
      rw [if_pos rfl, OrdMap.get?_insert]
      by_cases own : s = state
      · subst own
        simp [found, eq_comm]
      · simp [own]
    · simp [here]

/-- Where a statement of a state comes from. -/
inductive Origin (ops : List Operation) (state : String) : Stmt → Prop
  | given {ss : List Stmt} {s : Stmt} (asked : .act state ss ∈ ops) (hs : s ∈ ss) :
    Origin ops state s
  | move (target : String) : Origin ops state (.nextState target)
  | mark {w : Signal} (asked : .ongoing state w ∈ ops) : Origin ops state (.assign w (.int 1))

theorem Origin.mono {ops more : List Operation} {state : String} {s : Stmt}
    (h : Origin ops state s) (sub : ops ⊆ more) : Origin more state s := by
  cases h with
  | given asked hs => exact .given (sub asked) hs
  | move target => exact .move target
  | mark asked => exact .mark (sub asked)

namespace Performs

variable {o : Operation} {m next : Machine} {u v : Supply} (h : Performs o m u next v)
include h

theorem name_eq : next.name = m.name := by
  cases h with
  | act state ss => rw [act_eq]
  | delayed state target delay =>
    cases delay with
    | zero => rfl
    | succ delay => rw [Machine.delayed, passage_eq]
  | ongoing state handed =>
    obtain ⟨-, rfl⟩ := ongoing_ok handed
    rw [act_eq]
  | watch event state handed =>
    obtain ⟨-, events, rfl, -⟩ := watch_ok handed
    rw [declare_eq]

theorem anonymous_eq : next.anonymous = m.anonymous + o.between := by
  cases h with
  | act state ss =>
    rw [act_eq]
    rfl
  | delayed state target delay =>
    cases delay with
    | zero => rfl
    | succ delay =>
      rw [Machine.delayed, passage_eq]
      rfl
  | ongoing state handed =>
    obtain ⟨-, rfl⟩ := ongoing_ok handed
    rw [act_eq]
    rfl
  | watch event state handed =>
    obtain ⟨-, events, rfl, -⟩ := watch_ok handed
    rw [declare_eq]
    rfl

theorem nodup_states (distinct : m.states.Nodup) : next.states.Nodup := by
  cases h with
  | act state ss => exact states_act m state ss ▸ nodup_declare distinct state
  | delayed state target delay =>
    cases delay with
    | zero => exact distinct
    | succ delay => exact nodup_passage distinct state target delay
  | ongoing state handed =>
    obtain ⟨-, rfl⟩ := ongoing_ok handed
    exact states_act m state _ ▸ nodup_declare distinct state
  | watch event state handed =>
    obtain ⟨-, events, rfl, -⟩ := watch_ok handed
    exact nodup_declare distinct state

theorem mem_states {x : String} :
    x ∈ next.states ↔ x ∈ m.states ∨ x ∈ o.declares m.name m.anonymous := by
  cases h with
  | act state ss =>
    rw [mem_states_act]
    exact or_congr_right List.mem_singleton.symm
  | delayed state target delay =>
    cases delay with
    | zero => simp [Operation.declares, Machine.delayed, states]
    | succ delay => exact mem_states_passage
  | ongoing state handed =>
    obtain ⟨-, rfl⟩ := ongoing_ok handed
    rw [mem_states_act]
    exact or_congr_right List.mem_singleton.symm
  | watch event state handed =>
    obtain ⟨-, events, rfl, -⟩ := watch_ok handed
    exact mem_states_declare.trans (or_congr_right List.mem_singleton.symm)

/-- States that are not declared by an operation do what they did. -/
theorem mem_bodies_of_not_mem {x : String} (away : x ∉ o.declares m.name m.anonymous)
    {body : List Stmt} : (x, body) ∈ next.bodies ↔ (x, body) ∈ m.bodies := by
  cases h with
  | act state ss => exact mem_act_of_ne fun same => away (List.mem_singleton.mpr same)
  | delayed state target delay =>
    cases delay with
    | zero => rfl
    | succ delay => exact mem_passage_of_not_mem away
  | ongoing state handed =>
    obtain ⟨-, rfl⟩ := ongoing_ok handed
    exact mem_act_of_ne fun same => away (List.mem_singleton.mpr same)
  | watch event state handed =>
    obtain ⟨-, events, rfl, -⟩ := watch_ok handed
    refine mem_declare.trans (or_iff_left ?_)
    rintro ⟨-, same, -⟩
    exact away (List.mem_singleton.mpr same)

theorem kept : Kept m next := by
  cases h with
  | act state ss => exact kept_act m state ss
  | delayed state target delay =>
    cases delay with
    | zero => exact .refl m
    | succ delay => exact kept_passage m state target delay
  | ongoing state handed =>
    obtain ⟨-, rfl⟩ := ongoing_ok handed
    exact kept_act m state _
  | watch event state handed =>
    obtain ⟨-, events, rfl, -⟩ := watch_ok handed
    exact kept_declare m state

theorem origin {x : String} {body : List Stmt} (known : (x, body) ∈ next.bodies) {s : Stmt}
    (hs : s ∈ body) : (∃ old, (x, old) ∈ m.bodies ∧ s ∈ old) ∨ Origin [o] x s := by
  cases h with
  | act state ss =>
    rcases mem_body_act known hs with old | ⟨rfl, new⟩
    · exact .inl old
    · exact .inr (.given (.head _) new)
  | delayed state target delay =>
    cases delay with
    | zero => exact .inl ⟨body, known, hs⟩
    | succ delay =>
      rcases mem_body_passage known hs with old | ⟨y, rfl⟩
      · exact .inl old
      · exact .inr (.move y)
  | ongoing state handed =>
    obtain ⟨-, rfl⟩ := ongoing_ok handed
    rcases mem_body_act known hs with old | ⟨rfl, new⟩
    · exact .inl old
    · obtain rfl := List.mem_singleton.mp new
      exact .inr (.mark (.head _))
  | watch event state handed =>
    obtain ⟨-, events, rfl, -⟩ := watch_ok handed
    rcases mem_declare.mp known with known | ⟨-, -, rfl⟩
    · exact .inl ⟨body, known, hs⟩
    · cases hs

/-- The signal for a state stands in what the state does. -/
theorem marks {state : String} {w : Signal} (asked : o = .ongoing state w) :
    ∃ body, (state, body) ∈ next.bodies ∧ .assign w (.int 1) ∈ body := by
  cases h with
  | @ongoing _ _ _ _ w' state' handed =>
    cases asked
    obtain ⟨-, rfl⟩ := ongoing_ok handed
    -- The mark stands behind whatever the state did before.
    obtain ⟨old, known⟩ := Machine.mem_states.mp (mem_states_declare.mpr (.inr rfl))
    exact ⟨old ++ [.assign w (.int 1)], mem_act.mpr (.inr ⟨rfl, old, known, rfl⟩),
      List.mem_append_right _ (.head _)⟩
  | _ => cases asked

theorem aliased {x y : String} (known : next.aliases.get? x = some y) :
    m.aliases.get? x = some y ∨ o = .delayed x y 0 := by
  cases h with
  | act state ss =>
    rw [act_eq] at known
    exact .inl known
  | delayed state target delay =>
    cases delay with
    | zero =>
      simp only [Machine.delayed, OrdMap.get?_insert] at known
      split at known
      next here =>
        cases known
        exact .inr (here ▸ rfl)
      next => exact .inl known
    | succ delay =>
      rw [Machine.delayed, passage_eq] at known
      exact .inl known
  | ongoing state handed =>
    obtain ⟨-, rfl⟩ := ongoing_ok handed
    rw [act_eq] at known
    exact .inl known
  | watch event state handed =>
    obtain ⟨-, events, rfl, -⟩ := watch_ok handed
    rw [declare_eq] at known
    exact .inl known

theorem watched {e : Event} {s : String} {w : Signal} :
    (next.events e).get? s = some w ↔
      (m.events e).get? s = some w ∨ o = .watch e s w := by
  cases h with
  | act state ss =>
    rw [act_eq]
    simp
  | delayed state target delay =>
    cases delay with
    | zero => simp [Machine.delayed]
    | succ delay =>
      rw [Machine.delayed, passage_eq]
      simp
  | ongoing state handed =>
    obtain ⟨-, rfl⟩ := ongoing_ok handed
    rw [act_eq]
    simp
  | @watch _ _ _ _ w' event state handed =>
    obtain ⟨-, events, rfl, get⟩ := watch_ok handed
    rw [get, Operation.watch.injEq, eq_comm (a := event), eq_comm (a := state), eq_comm (a := w')]

theorem supply_le : u.nextSignal ≤ v.nextSignal := by
  cases h with
  | act | delayed => exact Nat.le_refl _
  | ongoing state handed => exact (ongoing_ok handed).1.supply ▸ Nat.le_succ _
  | watch event state handed =>
    rcases (watch_ok handed).1 with ⟨-, rfl⟩ | handed
    · exact Nat.le_refl _
    · exact handed.supply ▸ Nat.le_succ _

/-- A signal that is handed out is new, or it watches the same event already. -/
theorem handed {w : Signal} (hw : o.signal? = some w) :
    Handed u w v ∨ ∃ e s, o = .watch e s w ∧ (m.events e).get? s = some w := by
  cases h with
  | act | delayed => cases hw
  | ongoing state handed =>
    cases hw
    exact .inl (ongoing_ok handed).1
  | watch event state handed =>
    cases hw
    rcases (watch_ok handed).1 with ⟨known, -⟩ | handed
    · exact .inr ⟨event, state, rfl, known⟩
    · exact .inl handed

end Performs

/-! ### Histories -/

/-- How many states the operations make up. -/
def countBetween : List Operation → Nat
  | [] => 0
  | o :: ops => o.between + countBetween ops

theorem countBetween_append (ops more : List Operation) :
    countBetween (ops ++ more) = countBetween ops + countBetween more := by
  induction ops with
  | nil => simp [countBetween]
  | cons o ops ih => rw [List.cons_append, countBetween, countBetween, ih, Nat.add_assoc]

/-- A machine that operations put together, one after the other. Other signals may be made in
between. -/
inductive Assembled : List Operation → Machine → Supply → Prop
  | new {m : Machine} (u : Supply) (bodies : m.bodies = []) (aliases : m.aliases = ∅)
    (anonymous : m.anonymous = 0) (events : ∀ e, m.events e = ∅) : Assembled [] m u
  | next {ops : List Operation} {o : Operation} {m next : Machine} {u v : Supply}
    (before : Assembled ops m u) (performs : Performs o m u next v) :
    Assembled (ops ++ [o]) next v
  | later {ops : List Operation} {m : Machine} {u v : Supply} (before : Assembled ops m u)
    (more : u.nextSignal ≤ v.nextSignal) : Assembled ops m v

namespace Assembled

variable {ops : List Operation} {m : Machine} {u : Supply} (h : Assembled ops m u)
include h

theorem distinct : m.states.Nodup := by
  induction h with
  | new _ bodies =>
    rw [states, bodies]
    exact List.nodup_nil
  | next _ performs ih => exact performs.nodup_states ih
  | later _ _ ih => exact ih

theorem anonymous_eq : m.anonymous = countBetween ops := by
  induction h with
  | new _ _ _ anonymous => exact anonymous
  | next _ performs ih =>
    rw [performs.anonymous_eq, ih, countBetween_append]
    rfl
  | later _ _ ih => exact ih

theorem origin {x : String} {body : List Stmt} (known : (x, body) ∈ m.bodies) {s : Stmt}
    (hs : s ∈ body) : Origin ops x s := by
  induction h generalizing body with
  | new _ bodies =>
    rw [bodies] at known
    cases known
  | next _ performs ih =>
    rcases performs.origin known hs with ⟨old, known, hs⟩ | new
    · exact (ih known hs).mono (List.subset_append_left ..)
    · exact new.mono (List.subset_append_right ..)
  | later _ _ ih => exact ih known hs

theorem marks {state : String} {w : Signal} (asked : .ongoing state w ∈ ops) :
    ∃ body, (state, body) ∈ m.bodies ∧ .assign w (.int 1) ∈ body := by
  induction h with
  | new => cases asked
  | next _ performs ih =>
    rcases List.mem_append.mp asked with asked | asked
    · obtain ⟨old, known, hs⟩ := ih asked
      obtain ⟨body, known, sub⟩ := performs.kept state old known
      exact ⟨body, known, sub hs⟩
    · exact performs.marks (List.mem_singleton.mp asked).symm
  | later _ _ ih => exact ih asked

theorem aliased {x y : String} (known : m.aliases.get? x = some y) : .delayed x y 0 ∈ ops := by
  induction h with
  | new _ _ aliases =>
    rw [aliases] at known
    cases known
  | next _ performs ih =>
    rcases performs.aliased known with known | rfl
    · exact List.mem_append_left _ (ih known)
    · exact List.mem_append_right _ (.head _)
  | later _ _ ih => exact ih known

theorem watched {e : Event} {s : String} {w : Signal} :
    (m.events e).get? s = some w ↔ .watch e s w ∈ ops := by
  induction h with
  | new _ _ _ _ events => simp [events]
  | next _ performs ih => rw [performs.watched, ih, List.mem_append, List.mem_singleton, eq_comm]
  | later _ _ ih => exact ih

theorem declared {e : Event} {s : String} {w : Signal} (asked : .watch e s w ∈ ops) :
    s ∈ m.states := by
  induction h with
  | new => cases asked
  | next _ performs ih =>
    rcases List.mem_append.mp asked with asked | asked
    · exact performs.mem_states.mpr (.inl (ih asked))
    · obtain rfl := List.mem_singleton.mp asked
      exact performs.mem_states.mpr (.inr (.head _))
  | later _ _ ih => exact ih asked

/-- Signals that were handed out are those of single bits that start at zero. -/
theorem handed {o : Operation} (ho : o ∈ ops) {w : Signal} (hw : o.signal? = some w) :
    w.shape = .unsigned 1 ∧ w.reset = 0 ∧ w.id.index < u.nextSignal := by
  induction h with
  | new => cases ho
  | @next ops o' m next u v before performs ih =>
    rcases List.mem_append.mp ho with ho | ho
    · obtain ⟨shape, reset, index⟩ := ih ho
      exact ⟨shape, reset, Nat.lt_of_lt_of_le index performs.supply_le⟩
    · obtain rfl := List.mem_singleton.mp ho
      rcases performs.handed hw with new | ⟨e, s, rfl, known⟩
      · exact ⟨new.shape, new.reset, by rw [new.index, new.supply]; exact Nat.lt_succ_self _⟩
      · -- The signal was handed out before, for the same event.
        obtain ⟨shape, reset, index⟩ := ih (before.watched.mp known)
        exact ⟨shape, reset, Nat.lt_of_lt_of_le index performs.supply_le⟩
  | later _ more ih =>
    obtain ⟨shape, reset, index⟩ := ih ho
    exact ⟨shape, reset, Nat.lt_of_lt_of_le index more⟩

/-- No signal is handed out for two purposes. -/
theorem eq_of_signal {o o' : Operation} (ho : o ∈ ops) (ho' : o' ∈ ops) {w : Signal}
    (hw : o.signal? = some w) (hw' : o'.signal? = some w) : o = o' := by
  induction h generalizing o o' with
  | new => cases ho
  | @next ops p m next u v before performs ih =>
    -- A signal that was handed out before is older than a new one.
    have old : ∀ q ∈ ops, q.signal? = some w → p.signal? = some w → q = p := by
      intro q hq hw hp
      rcases performs.handed hp with new | ⟨e, s, rfl, known⟩
      · have index := (before.handed hq hw).2.2
        rw [new.index] at index
        exact absurd index (Nat.lt_irrefl _)
      · exact ih hq (before.watched.mp known) hw hp
    simp only [List.mem_append, List.mem_singleton] at ho ho'
    rcases ho with before | rfl
    · rcases ho' with before' | rfl
      · exact ih before before' hw hw'
      · exact old o before hw hw'
    · rcases ho' with before' | rfl
      · exact (old o' before' hw' hw).symm
      · rfl
  | later _ _ ih => exact ih ho ho' hw hw'

end Assembled

/-! ### Requests -/

/-- An operation that is asked for, before a signal has been handed out. -/
inductive Request
  | act (state : String) (ss : List Stmt)
  | delayed (state target : String) (delay : Nat)
  | ongoing (state : String)
  | watch (event : Event) (state : String)

def Request.perform (m : Machine) : Request → StateM Supply (Operation × Machine)
  | act state ss => return (.act state ss, m.act state ss)
  | delayed state target delay => return (.delayed state target delay, m.delayed state target delay)
  | ongoing state => do
    let (w, m) ← m.ongoing state
    return (.ongoing state w, m)
  | watch event state => do
    let (w, m) ← m.watch event state
    return (.watch event state w, m)

/-- Put a machine together, with the list of what was done. -/
def assemble (m : Machine) : List Request → StateM Supply (List Operation × Machine)
  | [] => return ([], m)
  | r :: rs => do
    let (o, m) ← r.perform m
    let (ops, m) ← assemble m rs
    return (o :: ops, m)

theorem Request.performs (r : Request) (m : Machine) (u : Supply) :
    Performs ((r.perform m).run u).1.1 m u ((r.perform m).run u).1.2 ((r.perform m).run u).2 := by
  cases r with
  | act state ss => exact .act state ss
  | delayed state target delay => exact .delayed state target delay
  | ongoing state => exact .ongoing state rfl
  | watch event state => exact .watch event state rfl

/-- Whatever is asked for, a machine is put together by operations. -/
theorem Assembled.assemble {ops : List Operation} {m : Machine} {u : Supply}
    (before : Assembled ops m u) (rs : List Request) :
    Assembled (ops ++ ((m.assemble rs).run u).1.1) ((m.assemble rs).run u).1.2
      ((m.assemble rs).run u).2 := by
  induction rs generalizing ops m u with
  | nil =>
    change Assembled (ops ++ []) m u
    rwa [List.append_nil]
  | cons r rs ih =>
    -- The operation that was just done is the last one of the list so far.
    have rest := ih (before.next (r.performs m u))
    rw [List.append_assoc] at rest
    exact rest

theorem assembled_assemble (name : String) (rs : List Request) (u : Supply) :
    Assembled ((({ name } : Machine).assemble rs).run u).1.1
      ((({ name } : Machine).assemble rs).run u).1.2
      ((({ name } : Machine).assemble rs).run u).2 :=
  (Assembled.new u rfl rfl rfl fun _ => rfl).assemble rs

end Gateware.Machine
