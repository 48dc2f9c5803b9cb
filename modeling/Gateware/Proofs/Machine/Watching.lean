import Gateware.Proofs.Machine.Cycles
import Gateware.Proofs.Machine.History

/-!
# Signals that watch a machine

A signal that watches an event is driven by one assignment behind everything else that might drive
it. It has that assignment's value in every settled state, or after every edge if it watches the
moment after. A signal for the time in a state is driven by that state alone.

## Main results

* `Watched.before_value`, `Watched.after_value`: signals that watch have the values of their edges.
* `Watched.ongoing_value`: a signal for a state is set exactly while the register shows it.
-/
namespace Gateware

/-! ### Flags -/

/-- An expression of one bit that tells whether something holds. -/
structure Expr.Flags (ρ : Valuation) (e : Expr) (P : Prop) [Decidable P] : Prop where
  shape : e.shape = .unsigned 1
  value : e.eval ρ = .ok (if P then 1 else 0)

namespace Expr.Flags

variable {ρ : Valuation} {a b : Expr} {P Q : Prop} [Decidable P] [Decidable Q]

theorem congr (h : a.Flags ρ P) (same : P ↔ Q) : a.Flags ρ Q :=
  ⟨h.shape, h.value.trans (by simp only [same])⟩

theorem invert (h : a.Flags ρ P) : (Expr.unary .invert a).Flags ρ (¬ P) := by
  have shape : (Expr.unary .invert a).shape = .unsigned 1 := h.shape
  refine ⟨shape, ?_⟩
  rw [eval, h.value, shape]
  by_cases holds : P <;> simp only [holds] <;> rfl

theorem shape_and (ha : a.Flags ρ P) (hb : b.Flags ρ Q) :
    (Expr.binary .and a b).shape = .unsigned 1 := by
  rw [Expr.shape, ha.shape, hb.shape]
  rfl

theorem and (ha : a.Flags ρ P) (hb : b.Flags ρ Q) : (Expr.binary .and a b).Flags ρ (P ∧ Q) := by
  have shape := ha.shape_and hb
  refine ⟨shape, ?_⟩
  rw [eval, ha.value, hb.value, shape]
  by_cases left : P <;> by_cases right : Q <;> simp only [left, right] <;> rfl

theorem or (ha : a.Flags ρ P) (hb : b.Flags ρ Q) : (Expr.binary .or a b).Flags ρ (P ∨ Q) := by
  have shape : (Expr.binary .or a b).shape = .unsigned 1 := by
    rw [Expr.shape, ha.shape, hb.shape]
    rfl
  refine ⟨shape, ?_⟩
  rw [eval, ha.value, hb.value, shape]
  by_cases left : P <;> by_cases right : Q <;> simp only [left, right] <;> rfl

end Expr.Flags

namespace Machine

open Gateware.Stmt Gateware.Frame Gateware.Simulator

/-- If all that drives a signal are copies of one assignment, which reads nothing that changes on
the way, the signal ends with the assigned value. -/
theorem latest_of_copies {ss : List Stmt} {w : Signal} {e : Expr} (member : .assign w e ∈ ss)
    (copies : ∀ s ∈ ss, DrivenBy s.targets w → s = .assign w e) {f g : Frame}
    (stable : ∀ x ∈ e.mentions, f.clocked = true ∨ ¬ DrivenBy (targetsOf ss) x)
    (run : (execAll ss).run.run f = (.ok (), g)) :
    ∃ v, e.eval f.seen = .ok v ∧ g.latest w = w.shape.wrap v := by
  induction ss generalizing f with
  | nil => cases member
  | cons s ss ih =>
    obtain ⟨f', first, rest⟩ := run_execAll_cons_ok.mp run
    have stores := exec_stores s f
    rw [first] at stores
    by_cases later : .assign w e ∈ ss
    · have seen : ∀ x ∈ e.mentions, f'.seen x = f.seen x := by
        intro x hx
        rcases stable x hx with clocked | undriven
        · rw [seen_clocked clocked, seen_clocked (stores.clocked_eq.trans clocked), stores.state_eq]
        · exact stores.seen_eq fun driven => undriven (drivenBy_targetsOf.mpr ⟨s, .head _, driven⟩)
      rw [← e.eval_congr seen]
      refine ih later (fun u hu => copies u (.tail _ hu)) (fun x hx => ?_) rest
      rw [stores.clocked_eq]
      refine (stable x hx).imp_right fun undriven driven => undriven ?_
      obtain ⟨u, hu, driven⟩ := drivenBy_targetsOf.mp driven
      exact drivenBy_targetsOf.mpr ⟨u, .tail _ hu, driven⟩
    · -- The last copy is the one that counts.
      obtain rfl : s = .assign w e := ((List.mem_cons.mp member).resolve_right later).symm
      obtain ⟨v, value, rfl⟩ := run_assign_signal_ok.mp first
      refine ⟨v, value, ?_⟩
      have last := execAll_stores ss (f.stored w v)
      rw [rest] at last
      rw [last.latest_eq, latest_stored, if_pos rfl]
      intro driven
      obtain ⟨u, hu, driven⟩ := drivenBy_targetsOf.mp driven
      exact later (copies u (.tail _ hu) driven ▸ hu)

/-! ### Edges -/

/-- Whether an event is watched before the edge. -/
def Event.early : Event → Bool
  | beforeEntering | beforeLeaving => true
  | afterEntering | afterLeaving => false

/-- Whether an event is about entering a state. -/
def Event.enters : Event → Bool
  | beforeEntering | afterEntering => true
  | beforeLeaving | afterLeaving => false

namespace Edges

/-- What drives a signal that watches an event of a state. -/
def edge (e : Edges) (event : Event) (s : String) : Expr :=
  if event.enters then e.entering s else e.leaving s

theorem mem_drive {e : Edges} {event : Event} {edge : String → Expr} {u : Stmt} :
    u ∈ e.drive event edge ↔ ∃ s w, (e.machine.events event).get? s = some w ∧
      u = .assign w (edge (e.machine.resolve s)) := by
  simp only [drive, List.mem_map, Prod.exists, OrdMap.get?_eq_some_iff, eq_comm (b := u)]

theorem mentions_edge {e : Edges} {event : Event} {s : String} {x : Signal}
    (hx : x ∈ (e.edge event s).mentions) :
    x = e.state ∨ x = e.nextState ∨ x ∈ e.start.toList := by
  have entering : x ∈ (e.entering s).mentions →
      x = e.state ∨ x = e.nextState ∨ x ∈ e.start.toList := by
    intro hx
    cases start : e.start with
    | none =>
      simp only [Edges.entering, start] at hx
      simpa [Expr.mentions, isIn, goesTo, Expr.eq, coded, Expr.sized] using hx
    | some flag =>
      simp only [Edges.entering, start] at hx
      split at hx
      · simpa [Expr.mentions, isIn, goesTo, Expr.eq, coded, Expr.sized, or_assoc] using hx
      · have pair : x = e.state ∨ x = e.nextState := by
          simpa [Expr.mentions, isIn, goesTo, Expr.eq, coded, Expr.sized] using hx
        exact pair.imp_right .inl
  rw [edge] at hx
  split at hx
  · exact entering hx
  · have pair : x = e.state ∨ x = e.nextState := by
      simpa [leaving, Expr.mentions, isIn, goesTo, Expr.eq, coded, Expr.sized] using hx
    exact pair.imp_right .inl

end Edges

namespace Parts

variable {m : Machine} {p : Parts} {u : Stmt}

theorem mem_before : u ∈ p.before m ↔ ∃ event s w, event.early = true ∧
    (m.events event).get? s = some w ∧
      u = .assign w ((p.edges m).edge event (m.resolve s)) := by
  rw [before, List.mem_append, Edges.mem_drive, Edges.mem_drive]
  constructor
  · rintro (⟨s, w, listed, rfl⟩ | ⟨s, w, listed, rfl⟩)
    · exact ⟨.beforeEntering, s, w, rfl, listed, rfl⟩
    · exact ⟨.beforeLeaving, s, w, rfl, listed, rfl⟩
  · rintro ⟨event, s, w, early, listed, rfl⟩
    cases event with
    | beforeEntering => exact .inl ⟨s, w, listed, rfl⟩
    | beforeLeaving => exact .inr ⟨s, w, listed, rfl⟩
    | afterEntering | afterLeaving => cases early

theorem mem_after : u ∈ p.after m ↔ ∃ event s w, event.early = false ∧
    (m.events event).get? s = some w ∧
      u = .assign w ((p.edges m).edge event (m.resolve s)) := by
  rw [after, List.mem_append, Edges.mem_drive, Edges.mem_drive]
  constructor
  · rintro (⟨s, w, listed, rfl⟩ | ⟨s, w, listed, rfl⟩)
    · exact ⟨.afterEntering, s, w, rfl, listed, rfl⟩
    · exact ⟨.afterLeaving, s, w, rfl, listed, rfl⟩
  · rintro ⟨event, s, w, late, listed, rfl⟩
    cases event with
    | afterEntering => exact .inl ⟨s, w, listed, rfl⟩
    | afterLeaving => exact .inr ⟨s, w, listed, rfl⟩
    | beforeEntering | beforeLeaving => cases late

/-- Edges read new signals only. -/
theorem mentions_edge {event : Event} {s : String} {x : Signal}
    (hx : x ∈ ((p.edges m).edge event s).mentions) : x ∈ p.signals := by
  rcases Edges.mentions_edge hx with rfl | rfl | start
  · exact .head _
  · exact .tail _ (.head _)
  · exact .tail _ (.tail _ (List.mem_append_right _ start))

/-- What rewritten statements drive was driven before or is a new signal. -/
theorem drivenBy_replace {s : Stmt} {ts : List Stmt}
    (h : replace (m.plain p.nextState p.loads) s = .ok ts) {x : Signal}
    (driven : DrivenBy (targetsOf ts) x) : DrivenBy s.targets x ∨ x ∈ p.signals := by
  rw [← targetsOf_leavesOf, drivenBy_targetsOf] at driven
  obtain ⟨u, hu, driven⟩ := driven
  obtain ⟨v, hv, us, rewritten, mem⟩ := exists_of_mem_replaceOf (leavesOf_replace s h) hu
  rw [targets_eq_leaves, drivenBy_targetsOf]
  have leaf : v.isLeaf = true :=
    (leafAmong_leavesOf [s] v (by rw [leavesOf, leavesOf, List.append_nil]; exact hv)).leaf
  rw [replace_leaf leaf] at rewritten
  cases v with
  | assign lhs rhs =>
    cases rewritten
    obtain rfl := List.mem_singleton.mp mem
    exact .inl ⟨_, hv, driven⟩
  | nextState t =>
    rw [Machine.plain] at rewritten
    split at rewritten
    · cases rewritten
      obtain rfl := List.mem_singleton.mp mem
      obtain ⟨t, ht, hx⟩ := driven
      obtain rfl := List.mem_singleton.mp ht
      obtain rfl := List.mem_singleton.mp hx
      exact .inr (.tail _ (.head _))
    · cases rewritten
  | nextValue target value =>
    rw [Machine.plain] at rewritten
    split at rewritten
    next l found =>
      cases rewritten
      obtain ⟨enable, next⟩ := mem_signals_of_load (List.mem_of_find?_eq_some found)
      obtain ⟨t, ht, hx⟩ := driven
      rcases List.mem_pair.mp mem with rfl | rfl
      all_goals
        obtain rfl := List.mem_singleton.mp ht
        obtain rfl := List.mem_singleton.mp hx
      · exact .inr next
      · exact .inr enable
    · cases rewritten
      cases mem
  | branch | select => cases leaf

end Parts

/-! ### Values -/

/-- No statement that was given assigns to a signal. -/
def Untouched (ops : List Operation) (w : Signal) : Prop :=
  ∀ state ss, .act state ss ∈ ops → ¬ DrivenBy (targetsOf ss) w

theorem Assembled.older_watchers {ops : List Operation} {m : Machine} {u : Supply}
    (h : Assembled ops m u) : ∀ s ∈ m.watchers, s.id.index < u.nextSignal := by
  intro s hs
  obtain ⟨event, -, hs⟩ := List.mem_flatMap.mp hs
  obtain ⟨⟨state, w⟩, listed, rfl⟩ := List.mem_map.mp hs
  exact (h.handed (h.watched.mp (OrdMap.get?_eq_some_iff.mpr listed)) rfl).2.2

/-- A machine that operations put together, built. -/
structure Watched (ops : List Operation) (m : Machine) (supply : Supply) (p : Parts) : Prop where
  assembled : Assembled ops m supply
  built : p.Built m supply
  mentioned : ∀ s ∈ m.mentioned, s.id.index < supply.nextSignal

namespace Watched

variable {ops : List Operation} {m : Machine} {supply : Supply} {p : Parts}
  (h : Watched ops m supply p)
include h

theorem older : ∀ s ∈ m.mentioned ++ m.watchers, s.id.index < supply.nextSignal :=
  List.forall_mem_append.mpr ⟨h.mentioned, h.assembled.older_watchers⟩

/-- Signals that were handed out are none of the new ones. -/
theorem not_new {o : Operation} (ho : o ∈ ops) {w : Signal} (hw : o.signal? = some w) :
    w ∉ p.signals := fun new =>
  absurd (h.assembled.handed ho hw).2.2 (Nat.not_lt.mpr (h.built.supply_le new))

theorem resetValue_eq {o : Operation} (ho : o ∈ ops) {w : Signal} (hw : o.signal? = some w) :
    w.resetValue = 0 := by
  obtain ⟨shape, reset, -⟩ := h.assembled.handed ho hw
  rw [Signal.resetValue, shape, reset]
  rfl

/-- All that drives a signal that watches, among what drives such signals. -/
theorem edge_of_driven {event : Event} {s : String} {w : Signal} (asked : .watch event s w ∈ ops)
    {u : Stmt} (hu : u ∈ p.before m ∨ u ∈ p.after m) (driven : DrivenBy u.targets w) :
    u = .assign w ((p.edges m).edge event (m.resolve s)) := by
  have form : ∃ event' s' w', (m.events event').get? s' = some w' ∧
      u = .assign w' ((p.edges m).edge event' (m.resolve s')) := by
    rcases hu with early | late
    · obtain ⟨event', s', w', -, listed, same⟩ := Parts.mem_before.mp early
      exact ⟨event', s', w', listed, same⟩
    · obtain ⟨event', s', w', -, listed, same⟩ := Parts.mem_after.mp late
      exact ⟨event', s', w', listed, same⟩
  obtain ⟨event', s', w', listed, rfl⟩ := form
  obtain ⟨t, ht, hx⟩ := driven
  obtain rfl := List.mem_singleton.mp ht
  obtain rfl := List.mem_singleton.mp hx
  -- The signal was handed out for this event of this state only.
  cases h.assembled.eq_of_signal asked (h.assembled.watched.mp listed) rfl rfl
  rfl

/-- What a state's statements do to a signal that no statement given to it assigns. -/
theorem mark_of_driven {w : Signal} (untouched : Untouched ops w) (old : w ∉ p.signals)
    {b : String × List Stmt} (hb : b ∈ p.bodies) {u : Stmt} (hu : u ∈ b.2)
    (driven : DrivenBy u.targets w) : u = .assign w (.int 1) ∧ .ongoing b.1 w ∈ ops := by
  obtain ⟨body, hbody, plain⟩ := h.built.exists_body hb
  obtain ⟨s, hs, ts, rewritten, mem⟩ := exists_of_mem_replaceOf plain hu
  have was : DrivenBy s.targets w :=
    (Parts.drivenBy_replace rewritten (drivenBy_targetsOf.mpr ⟨u, mem, driven⟩)).resolve_right old
  cases h.assembled.origin hbody hs with
  | given asked inside =>
    exact absurd (drivenBy_targetsOf.mpr ⟨s, inside, was⟩) (untouched _ _ asked)
  | move target =>
    obtain ⟨t, ht, -⟩ := was
    cases ht
  | @mark w' asked =>
    obtain ⟨t, ht, hx⟩ := was
    obtain rfl := List.mem_singleton.mp ht
    obtain rfl := List.mem_singleton.mp hx
    cases rewritten
    exact ⟨List.mem_singleton.mp mem, asked⟩

variable {domain : String} {first : Simulator} (loaded : Loads (p.netlist m domain) first)
include loaded

/-- A signal that watches the moment before an edge has the value of its edge. -/
theorem before_value {event : Event} (early : event.early = true) {s : String} {w : Signal}
    (asked : .watch event s w ∈ ops) {σ : SimState} (solved : Solved [] first.processes σ) :
    ∃ v, ((p.edges m).edge event (m.resolve s)).eval σ.value = .ok v ∧
      σ.value w = w.shape.wrap v := by
  let u : Stmt := .assign w ((p.edges m).edge event (m.resolve s))
  have hu : u ∈ p.before m :=
    Parts.mem_before.mpr ⟨event, s, w, early, h.assembled.watched.mpr asked, rfl⟩
  obtain ⟨pre, post, -, behind, listed⟩ := Process.exists_process_of_mem (p.selection m) hu
  have process := Parts.mem_processes loaded listed
  obtain ⟨g, run, values⟩ := solved.run_logic process (Parts.sound loaded _ process)
  obtain ⟨f, run₁, run₂⟩ := run_execAll_append_ok.mp run
  have stores₁ := execAll_stores pre (fresh σ (assigned (pre ++ u :: post)))
  have stores₂ := execAll_stores (u :: post) f
  rw [run₁] at stores₁
  rw [run₂] at stores₂
  have tail : ∀ v ∈ u :: post, v ∈ p.before m := List.forall_mem_cons.mpr ⟨hu, behind⟩
  -- From the assignment on only watchers are driven, and an edge reads none.
  have quiet : ∀ x ∈ ((p.edges m).edge event (m.resolve s)).mentions,
      ¬ DrivenBy (targetsOf (u :: post)) x := by
    intro x hx driven
    have watcher := Parts.drivenBy_before
      (driven.mono (fun t => mem_targetsOf_of_subset fun v hv => tail v hv) x)
    exact h.built.not_old h.older (Parts.mentions_edge hx) (List.mem_append_right _ watcher)
  obtain ⟨v, value, latest⟩ := latest_of_copies (.head _)
    (fun v hv driven => h.edge_of_driven asked (.inl (tail v hv)) driven)
    (fun x hx => .inr (quiet x hx)) run₂
  have agree : ∀ x ∈ ((p.edges m).edge event (m.resolve s)).mentions, f.seen x = σ.value x := by
    intro x hx
    rw [seen_blocking stores₁.clocked_eq]
    by_cases written : x ∈ assigned (pre ++ u :: post)
    · rw [values x written, stores₂.latest_eq (quiet x hx)]
    · rw [stores₁.latest_eq, latest_fresh_of_not_mem written]
      exact fun driven => written (drivenBy_iff.mp (drivenBy_append.mpr (.inl driven)))
  rw [Expr.eval_congr _ agree] at value
  refine ⟨v, value, ?_⟩
  rw [values w, latest]
  exact drivenBy_iff.mp (drivenBy_append.mpr (.inr ⟨.signal w, .head _, .head _⟩))

omit loaded in
theorem mem_after {event : Event} (late : event.early = false) {s : String} {w : Signal}
    (asked : .watch event s w ∈ ops) :
    .assign w ((p.edges m).edge event (m.resolve s)) ∈ p.after m :=
  Parts.mem_after.mpr ⟨event, s, w, late, h.assembled.watched.mpr asked, rfl⟩

omit loaded in
/-- A signal that watches the moment after an edge gets the value of its edge. -/
theorem after_value {event : Event} (late : event.early = false) {s : String} {w : Signal}
    (asked : .watch event s w ∈ ops) {σ : SimState} {g : Frame}
    (run : (execAll (p.sync m)).run.run { state := σ, clocked := true } = (.ok (), g)) :
    ∃ v, ((p.edges m).edge event (m.resolve s)).eval σ.value = .ok v ∧
      g.latest w = w.shape.wrap v := by
  have split : p.sync m = (.assign p.state p.nextState :: (p.loads.map Parts.register ++
      p.start.toList.map fun s => .assign s (.int 0))) ++ p.after m := by
    rw [Parts.sync, List.cons_append, List.append_assoc]
  rw [split] at run
  obtain ⟨f, run₁, run₂⟩ := run_execAll_append_ok.mp run
  have stores := execAll_stores (.assign p.state p.nextState :: (p.loads.map Parts.register ++
    p.start.toList.map fun s => .assign s (.int 0))) { state := σ, clocked := true }
  rw [run₁] at stores
  have clocked : f.clocked = true := stores.clocked_eq
  have found := latest_of_copies (h.mem_after late asked)
    (fun v hv driven => h.edge_of_driven asked (.inr hv) driven) (fun _ _ => .inl clocked) run₂
  rwa [seen_clocked clocked, stores.state_eq] at found

omit loaded in
theorem after_assigned {event : Event} (late : event.early = false) {s : String} {w : Signal}
    (asked : .watch event s w ∈ ops) : w ∈ assigned (p.sync m) := by
  have member := h.mem_after late asked
  exact drivenBy_iff.mp (drivenBy_targetsOf.mpr
    ⟨_, .tail _ (List.mem_append_right _ (List.mem_append_right _ member)), .signal w, .head _,
      .head _⟩)

/-- A signal for a state is set while the state register shows the state's number. -/
theorem ongoing_value {s : String} {w : Signal} (asked : .ongoing s w ∈ ops)
    (untouched : Untouched ops w) {σ : SimState} (solved : Solved [] first.processes σ) {k : Nat}
    {x : String} (known : m.code? x = some k) (shows : σ.value p.state = k) :
    σ.value w = if x = s then 1 else 0 := by
  have old := h.not_new asked rfl
  -- The mark is still there in the rewritten statements of its state.
  obtain ⟨body, hbody, marked⟩ := h.assembled.marks asked
  obtain ⟨i, place⟩ := List.mem_iff_getElem?.mp hbody
  obtain ⟨ts, place', plain⟩ := h.built.body_at place
  obtain ⟨us, rewritten, sub⟩ := mem_replaceOf plain marked
  cases rewritten
  have mark : .assign w (.int 1) ∈ ts := sub (.head _)
  -- The selection runs the statements of the state that is shown.
  obtain ⟨inside, here, -⟩ := List.findIdx?_eq_some_iff_getElem.mp known
  have listed : m.states[k]? = some x :=
    List.getElem?_eq_some_iff.mpr ⟨inside, of_decide_eq_true here⟩
  rw [← h.built.states_eq, List.getElem?_map] at listed
  obtain ⟨⟨y, ss⟩, current, rfl⟩ := Option.map_eq_some_iff.mp listed
  obtain ⟨writes, f, g, -, covers, stores, -, run, values⟩ :=
    h.built.run_shown loaded h.assembled.distinct solved current shows
  have written : w ∈ writes := covers w (drivenBy_iff.mp
    ((DrivenBy.mono (Parts.selection_covers (List.mem_of_getElem? place')).1 w)
      (drivenBy_targetsOf.mpr ⟨_, mark, .signal w, .head _, .head _⟩)))
  have unwatched : w ∉ m.watchers := by
    intro listed
    obtain ⟨event, -, listed⟩ := List.mem_flatMap.mp listed
    obtain ⟨⟨z, w'⟩, entry, rfl⟩ := List.mem_map.mp listed
    cases h.assembled.eq_of_signal asked
      (h.assembled.watched.mp (OrdMap.get?_eq_some_iff.mpr entry)) rfl rfl
  rw [values w written unwatched]
  have only : ∀ u ∈ ss, DrivenBy u.targets w → u = .assign w (.int 1) ∧ .ongoing y w ∈ ops :=
    fun u hu => h.mark_of_driven untouched old (List.mem_of_getElem? current) hu
  by_cases own : y = s
  · subst own
    rw [if_pos rfl]
    -- States are distinct, so these are the statements with the mark.
    have number : m.code? y = some i := h.built.code?_of_body h.assembled.distinct place'
    cases number.symm.trans known
    cases current.symm.trans place'
    obtain ⟨v, value, latest⟩ := latest_of_copies mark (fun u hu driven => (only u hu driven).1)
      (by simp [Expr.int, Expr.mentions]) run
    rw [latest, (h.assembled.handed asked rfl).1, ← Except.ok.inj value]
    rfl
  · rw [if_neg own]
    have quiet := execAll_stores ss f
    rw [run] at quiet
    rw [quiet.latest_eq, stores.latest_eq, latest_fresh_of_mem written,
      h.resetValue_eq asked rfl]
    · rintro rfl
      exact old (.tail _ (.head _))
    · intro driven
      obtain ⟨u, hu, driven⟩ := drivenBy_targetsOf.mp driven
      cases h.assembled.eq_of_signal asked (only u hu driven).2 rfl rfl
      exact own rfl

end Watched

end Machine

end Gateware
