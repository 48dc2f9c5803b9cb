import Gateware.Proofs.Graph
import Gateware.Proofs.Ordered
import Gateware.Simulation.Process
import Mathlib.Data.List.Induction

/-!
# The order of processes

A process that reads what another one drives runs after it. There may be many such orders, and
which one is found does not matter: what is said of processes in order is said of all orders that
only lead forward (`Orders`).

## Main results

* `Orders.scheduled`: if no signal is driven twice, nobody reads ahead in an order.
* `ordered_of_scheduled`: wherever processes can be listed so, an order is found.
* `Orders.ready`: even where a signal is driven twice, every process finds what it reads already
  driven in the same pass, unless nobody drives it or it does so itself.

## Proof strategy

The edges of `graph` are those from a process to the ones that read what it is entered as driving
(`edge_graph`), and where signals are driven once they are entered under their own process
(`Apart.driver_eq`). The rest is about lists of numbers without an edge that leads back.
-/
namespace Gateware.Process

/-- No process reads what a later one drives. -/
def Scheduled (ps : List Process) : Prop := ps.Pairwise fun p q => ∀ s ∈ p.inputs, s ∉ q.outputs

/-- No signal is driven by two processes. -/
def Apart (ps : List Process) : Prop := ps.Pairwise fun p q => ∀ s ∈ p.outputs, s ∉ q.outputs

/-- Some process drives the signal. -/
def Driven (ps : List Process) (s : Signal) : Prop := ∃ p ∈ ps, s ∈ p.outputs

instance (ps : List Process) (s : Signal) : Decidable (Driven ps s) :=
  inferInstanceAs (Decidable (∃ p ∈ ps, s ∈ p.outputs))

/-- Once the signals of `done` are driven, every process finds what it reads: signals that are
driven at all are its own or driven before it. -/
def Ready (driven : Signal → Prop) : (done : Signal → Prop) → List Process → Prop
  | _, [] => True
  | done, p :: ps =>
    (∀ s ∈ p.inputs, driven s → s ∈ p.outputs ∨ done s) ∧
      Ready driven (fun s => done s ∨ s ∈ p.outputs) ps

theorem Apart.perm {ps qs : List Process} (perm : ps.Perm qs) : Apart ps ↔ Apart qs := by
  refine perm.pairwise_iff ?_
  intro p q apart s hq hp
  exact apart s hp hq

theorem Driven.perm {ps qs : List Process} (perm : ps.Perm qs) (s : Signal) :
    Driven ps s ↔ Driven qs s := by
  simp only [Driven, perm.mem_iff]

/-! ### Drivers -/

theorem foldl_insert_get? {m : OrdMap Signal Nat} {xs : List Signal} {i : Nat} (s : Signal) :
    (xs.foldl (fun m s => m.insert s i) m).get? s = if s ∈ xs then some i else m.get? s := by
  induction xs generalizing m with
  | nil => simp
  | cons x xs ih =>
    rw [List.foldl_cons, ih, OrdMap.get?_insert]
    by_cases later : s ∈ xs
    · simp [later]
    · by_cases here : s = x <;> simp [later, here]

theorem drivers_concat (ps : List Process) (p : Process) (s : Signal) :
    (drivers (ps ++ [p])).get? s =
      if s ∈ p.outputs then some ps.length else (drivers ps).get? s := by
  simp only [drivers, List.zipIdx_append, List.foldl_append, List.zipIdx_singleton,
    List.foldl_cons, List.foldl_nil, foldl_insert_get?, Nat.zero_add, OrdSet.mem_toList]

/-- The entered driver of a signal is a process that drives it. -/
theorem drivers_sound (ps : List Process) {s : Signal} {d : Nat}
    (h : (drivers ps).get? s = some d) : ∃ p, ps[d]? = some p ∧ s ∈ p.outputs := by
  induction ps using List.reverseRecOn with
  | nil => cases h
  | append_singleton ps p ih =>
    rw [drivers_concat] at h
    split at h
    next member =>
      cases h
      exact ⟨p, by simp, member⟩
    next =>
      obtain ⟨q, hq, member⟩ := ih h
      refine ⟨q, ?_, member⟩
      rw [List.getElem?_append_left (List.getElem?_eq_some_iff.mp hq).1]
      exact hq

/-- Every driven signal has a driver entered. -/
theorem drivers_complete (ps : List Process) {s : Signal} (h : Driven ps s) :
    ∃ d, (drivers ps).get? s = some d := by
  induction ps using List.reverseRecOn with
  | nil =>
    obtain ⟨p, hp, -⟩ := h
    cases hp
  | append_singleton ps p ih =>
    rw [drivers_concat]
    by_cases member : s ∈ p.outputs
    · exact ⟨ps.length, by rw [if_pos member]⟩
    · rw [if_neg member]
      obtain ⟨q, hq, driven⟩ := h
      rcases List.mem_append.mp hq with hq | hq
      · exact ih ⟨q, hq, driven⟩
      · cases List.mem_singleton.mp hq
        exact absurd driven member

/-! ### The graph of processes -/

theorem mem_edges_connect {g : Graph} {a b : Nat} {e : Nat × Nat} :
    e ∈ (g.connect a b).edges ↔ e ∈ g.edges ∨ e = (a, b) := by
  unfold Graph.connect
  split
  next present =>
    constructor
    · exact .inl
    · rintro (h | rfl)
      · exact h
      · exact present
  next => simp

theorem size_connect (g : Graph) (a b : Nat) : (g.connect a b).size = g.size := by
  unfold Graph.connect
  split <;> rfl

/-- The edges that lead to process `i` because of the signals in a list. -/
def connectAll (drivers : OrdMap Signal Nat) (i : Nat) (g : Graph) (xs : List Signal) : Graph :=
  xs.foldl (fun g s =>
    match drivers.get? s with
    | some d => if d = i then g else g.connect d i
    | none => g) g

theorem mem_connectAll {m : OrdMap Signal Nat} {i : Nat} {g : Graph} {xs : List Signal}
    {a b : Nat} :
    (a, b) ∈ (connectAll m i g xs).edges ↔
      (a, b) ∈ g.edges ∨ (b = i ∧ a ≠ i ∧ ∃ s ∈ xs, m.get? s = some a) := by
  induction xs generalizing g with
  | nil => simp [connectAll]
  | cons x xs ih =>
    have next : (a, b) ∈ (match m.get? x with
        | some d => if d = i then g else g.connect d i
        | none => g : Graph).edges ↔
        (a, b) ∈ g.edges ∨ (b = i ∧ a ≠ i ∧ m.get? x = some a) := by
      cases hx : m.get? x with
      | none => simp
      | some d =>
        by_cases own : d = i
        · simp only [own, if_true, Option.some.injEq]
          constructor
          · exact .inl
          · rintro (h | ⟨-, differ, rfl⟩)
            · exact h
            · exact absurd rfl differ
        · simp only [own, if_false, mem_edges_connect, Prod.mk.injEq, Option.some.injEq]
          constructor
          · rintro (h | ⟨rfl, rfl⟩)
            · exact .inl h
            · exact .inr ⟨rfl, own, rfl⟩
          · rintro (h | ⟨rfl, -, rfl⟩)
            · exact .inl h
            · exact .inr ⟨rfl, rfl⟩
    rw [connectAll, List.foldl_cons]
    change (a, b) ∈ (connectAll m i _ xs).edges ↔ _
    rw [ih, next]
    simp only [List.mem_cons, exists_eq_or_imp]
    tauto

theorem size_connectAll (m : OrdMap Signal Nat) (i : Nat) (g : Graph) (xs : List Signal) :
    (connectAll m i g xs).size = g.size := by
  induction xs generalizing g with
  | nil => rfl
  | cons x xs ih =>
    rw [connectAll, List.foldl_cons]
    change (connectAll m i _ xs).size = _
    rw [ih]
    split
    · split
      · rfl
      · exact size_connect ..
    · rfl

theorem mem_foldl_connectAll (m : OrdMap Signal Nat) (g : Graph) (xs : List (Process × Nat))
    (a b : Nat) :
    (a, b) ∈ (xs.foldl (fun g x => connectAll m x.2 g x.1.inputs.toList) g).edges ↔
      (a, b) ∈ g.edges ∨ (a ≠ b ∧ ∃ p, (p, b) ∈ xs ∧ ∃ s ∈ p.inputs, m.get? s = some a) := by
  induction xs generalizing g with
  | nil => simp
  | cons x xs ih =>
    rw [List.foldl_cons, ih, mem_connectAll]
    constructor
    · rintro ((old | ⟨rfl, differ, s, hs, found⟩) | ⟨differ, p, hp, rest⟩)
      · exact .inl old
      · exact .inr ⟨differ, x.1, by simp, s, hs, found⟩
      · exact .inr ⟨differ, p, List.mem_cons_of_mem _ hp, rest⟩
    · rintro (old | ⟨differ, p, hp, s, hs, found⟩)
      · exact .inl (.inl old)
      · rcases List.mem_cons.mp hp with rfl | hp
        · exact .inl (.inr ⟨rfl, differ, s, hs, found⟩)
        · exact .inr ⟨differ, p, hp, s, hs, found⟩

theorem size_graph (ps : List Process) : (graph ps).size = ps.length := by
  have keep : ∀ (xs : List (Process × Nat)) (g : Graph),
      (xs.foldl (fun g x => connectAll (drivers ps) x.2 g x.1.inputs.toList) g).size = g.size := by
    intro xs
    induction xs with
    | nil => exact fun _ => rfl
    | cons x xs ih =>
      intro g
      rw [List.foldl_cons, ih, size_connectAll]
  exact keep ps.zipIdx _

/-- Processes are joined to those that read what they are entered as driving. -/
theorem edge_graph {ps : List Process} {a b : Nat} :
    (graph ps).Edge a b ↔
      a ≠ b ∧ ∃ p, ps[b]? = some p ∧ ∃ s ∈ p.inputs, (drivers ps).get? s = some a := by
  have step := mem_foldl_connectAll (drivers ps) { size := ps.length } ps.zipIdx a b
  simp only [List.not_mem_nil, false_or, List.mem_zipIdx_iff_getElem?] at step
  exact step

theorem inside_graph (ps : List Process) : (graph ps).Inside := by
  intro a b edge
  rw [size_graph]
  obtain ⟨-, p, hp, s, -, found⟩ := edge_graph.mp edge
  obtain ⟨q, hq, -⟩ := drivers_sound ps found
  exact ⟨(List.getElem?_eq_some_iff.mp hq).1, (List.getElem?_eq_some_iff.mp hp).1⟩

/-! ### Ordered processes -/

theorem filterMap_range_getElem? {α : Type} (xs : List α) :
    (List.range xs.length).filterMap (xs[·]?) = xs := by
  induction xs using List.reverseRecOn with
  | nil => rfl
  | append_singleton xs x ih =>
    have early : (List.range xs.length).filterMap ((xs ++ [x])[·]?) =
        (List.range xs.length).filterMap (xs[·]?) :=
      List.filterMap_congr fun i hi =>
        List.getElem?_append_left (List.mem_range.mp hi)
    rw [List.length_append, List.length_singleton, List.range_succ, List.filterMap_append,
      early, ih]
    simp

/-- Processes in any order that lists each one once and only leads forward. -/
def Orders (ps qs : List Process) : Prop :=
  ∃ order : List Nat, order.Perm (List.range ps.length) ∧ (graph ps).Forward order ∧
    qs = order.filterMap (ps[·]?)

/-- The order that is found is one. -/
theorem orders_of_ordered {ps qs : List Process} (h : ordered ps = .ok qs) : Orders ps qs := by
  simp only [ordered] at h
  split at h
  · cases h
  next order found =>
    cases h
    obtain ⟨perm, forward⟩ := Graph.order_spec (inside_graph ps) found
    exact ⟨order, size_graph ps ▸ perm, forward, rfl⟩

theorem Orders.perm {ps qs : List Process} (h : Orders ps qs) : qs.Perm ps := by
  obtain ⟨order, perm, -, rfl⟩ := h
  have listed := perm.filterMap (ps[·]?)
  rwa [filterMap_range_getElem?] at listed

/-- If nobody drives twice, the number of a process is what its signals are entered under. -/
theorem Apart.driver_eq {ps : List Process} (apart : Apart ps) {s : Signal} {i : Nat} {p : Process}
    (hp : ps[i]? = some p) (driven : s ∈ p.outputs) : (drivers ps).get? s = some i := by
  obtain ⟨hi, rfl⟩ := List.getElem?_eq_some_iff.mp hp
  obtain ⟨d, found⟩ := drivers_complete ps ⟨ps[i], List.getElem_mem hi, driven⟩
  obtain ⟨q, hq, drives⟩ := drivers_sound ps found
  obtain ⟨hd, rfl⟩ := List.getElem?_eq_some_iff.mp hq
  have pairs := List.pairwise_iff_getElem.mp apart
  rcases Nat.lt_trichotomy d i with lt | rfl | gt
  · exact absurd driven (pairs d i hd hi lt s drives)
  · exact found
  · exact absurd drives (pairs i d hi hd gt s driven)

theorem Orders.scheduled {ps qs : List Process} (h : Orders ps qs) (apart : Apart ps) :
    Scheduled qs := by
  obtain ⟨order, perm, forward, rfl⟩ := h
  have nodup : order.Nodup := perm.nodup_iff.mpr List.nodup_range
  refine List.Pairwise.filterMap (R := fun a b => ¬ (graph ps).Edge b a ∧ a ≠ b) _ ?_
    (forward.and nodup)
  rintro a b ⟨later, differ⟩ p hp q hq s reads drives
  exact later (edge_graph.mpr ⟨differ.symm, p, hp, s, reads, apart.driver_eq hq drives⟩)

theorem Orders.acyclic {ps qs : List Process} (h : Orders ps qs) : (graph ps).Acyclic := by
  obtain ⟨order, perm, forward, -⟩ := h
  have listed {v : Nat} (hv : v < (graph ps).size) : order.idxOf v < order.length := by
    rw [size_graph] at hv
    exact List.idxOf_lt_length_of_mem (perm.mem_iff.mpr (List.mem_range.mpr hv))
  -- A process ranks by its place in the order.
  refine Graph.acyclic_of_rank order.idxOf fun a b edge => ?_
  obtain ⟨differ, -⟩ := edge_graph.mp edge
  obtain ⟨ha, hb⟩ := inside_graph ps a b edge
  rcases Nat.lt_trichotomy (order.idxOf a) (order.idxOf b) with lt | same | gt
  · exact lt
  · have equal := List.idxOf_inj (List.idxOf_lt_length_iff.mp (listed ha)) |>.mp same
    exact absurd equal differ
  · have ahead := List.pairwise_iff_getElem.mp forward _ _ (listed hb) (listed ha) gt
    rw [List.getElem_idxOf, List.getElem_idxOf] at ahead
    exact absurd edge ahead

/-- Where there is an order, one is found. -/
theorem Orders.found {ps qs : List Process} (h : Orders ps qs) : ∃ rs, ordered ps = .ok rs := by
  obtain ⟨order, found⟩ := Graph.order_of_acyclic (inside_graph ps) h.acyclic
  exact ⟨order.filterMap (ps[·]?), by simp only [ordered, found]⟩

/-- A list of the processes in which nobody reads ahead shows that there is an order. -/
theorem ordered_of_scheduled {ps qs : List Process} (apart : Apart ps) (perm : qs.Perm ps)
    (scheduled : Scheduled qs) : ∃ rs, ordered ps = .ok rs := by
  classical
  have acyclic : (graph ps).Acyclic := by
    -- A process ranks by its place in the list; one that drives a signal has a single place.
    refine Graph.acyclic_of_rank (fun i => (ps[i]?.map qs.idxOf).getD 0) fun a b edge => ?_
    obtain ⟨differ, q, hq, s, reads, found⟩ := edge_graph.mp edge
    obtain ⟨p, hp, drives⟩ := drivers_sound ps found
    simp only [hp, hq, Option.map_some, Option.getD_some]
    have mem : ∀ {i : Nat} {r : Process}, ps[i]? = some r → r ∈ qs := fun hr =>
      perm.mem_iff.mpr (List.mem_of_getElem? hr)
    have hpq := List.idxOf_lt_length_of_mem (mem hp)
    have hqq := List.idxOf_lt_length_of_mem (mem hq)
    rcases Nat.lt_trichotomy (qs.idxOf p) (qs.idxOf q) with lt | same | gt
    · exact lt
    · have equal : p = q := List.idxOf_inj (mem hp) |>.mp same
      subst equal
      have again := apart.driver_eq hq drives
      rw [found] at again
      cases again
      exact absurd rfl differ
    · have ahead := List.pairwise_iff_getElem.mp scheduled _ _ hqq hpq gt
      rw [List.getElem_idxOf, List.getElem_idxOf] at ahead
      exact absurd drives (ahead s reads)
  obtain ⟨order, found⟩ := Graph.order_of_acyclic (inside_graph ps) acyclic
  exact ⟨order.filterMap (ps[·]?), by simp only [ordered, found]⟩

/-- Along an order every process finds what it reads. -/
theorem Orders.ready {ps qs : List Process} (h : Orders ps qs) :
    Ready (Driven qs) (fun _ => False) qs := by
  have covered := Driven.perm h.perm
  obtain ⟨order, perm, forward, rfl⟩ := h
  have nodup : order.Nodup := perm.nodup_iff.mpr List.nodup_range
  -- The numbers already run, and those still to run.
  have along : ∀ (rest before : List Nat), order = before ++ rest →
      Ready (Driven (order.filterMap (ps[·]?)))
        (Driven (before.filterMap (ps[·]?))) (rest.filterMap (ps[·]?)) := by
    intro rest
    induction rest with
    | nil => exact fun _ _ => trivial
    | cons i rest ih =>
      intro before split
      cases hp : ps[i]? with
      | none =>
        simp only [List.filterMap_cons, hp]
        have step := ih (before ++ [i]) (by simp [split])
        simpa only [List.filterMap_append, List.filterMap_cons, hp, List.filterMap_nil,
          List.append_nil] using step
      | some p =>
        simp only [List.filterMap_cons, hp]
        refine ⟨fun s reads driven => ?_, ?_⟩
        · obtain ⟨d, found⟩ := drivers_complete ps ((covered s).mp driven)
          obtain ⟨q, hq, drives⟩ := drivers_sound ps found
          by_cases own : d = i
          · subst own
            rw [hp] at hq
            cases hq
            exact .inl drives
          · right
            have edge : (graph ps).Edge d i := edge_graph.mpr ⟨own, p, hp, s, reads, found⟩
            have listed : d ∈ order := perm.mem_iff.mpr
              (List.mem_range.mpr (List.getElem?_eq_some_iff.mp hq).1)
            rw [split] at listed forward
            rcases List.mem_append.mp listed with early | late
            · exact ⟨q, List.mem_filterMap.mpr ⟨d, early, hq⟩, drives⟩
            · rcases List.mem_cons.mp late with rfl | late
              · exact absurd rfl own
              · have tail := (List.pairwise_append.mp forward).2.1
                exact absurd edge ((List.pairwise_cons.mp tail).1 d late)
        · have step := ih (before ++ [i]) (by simp [split])
          have same : Driven ((before ++ [i]).filterMap (ps[·]?)) =
              fun s => Driven (before.filterMap (ps[·]?)) s ∨ s ∈ p.outputs := by
            funext s
            simp only [Driven, List.filterMap_append, List.filterMap_cons, hp, List.filterMap_nil,
              List.mem_append, List.mem_singleton, eq_iff_iff]
            constructor
            · rintro ⟨q, hq | rfl, drives⟩
              · exact .inl ⟨q, hq, drives⟩
              · exact .inr drives
            · rintro (⟨q, hq, drives⟩ | drives)
              · exact ⟨q, .inl hq, drives⟩
              · exact ⟨p, .inr rfl, drives⟩
          rwa [same] at step
  have all := along order [] rfl
  have none : Driven (([] : List Nat).filterMap (ps[·]?)) = fun _ => False := by
    funext s
    simp [Driven]
  rwa [none] at all

end Gateware.Process
