import Gateware.Graph
import Mathlib.Data.List.Perm.Subperm
import Mathlib.Logic.Relation

/-!
# The order of a graph

The walk finds every node once and finishes every node it finds, so the finishing order lists all
nodes. Without a cycle a node is finished after everything it leads to, hence the order only leads
forward and is never refused; with an order that leads forward there is no cycle.
-/
namespace Gateware.Graph

/-- An edge of the graph. -/
def Edge (g : Graph) (a b : Nat) : Prop := (a, b) ∈ g.edges

/-- Edges join nodes of the graph. -/
def Inside (g : Graph) : Prop := ∀ a b, g.Edge a b → a < g.size ∧ b < g.size

/-- No node leads back to itself. -/
def Acyclic (g : Graph) : Prop := ∀ v, ¬ Relation.TransGen g.Edge v v

/-- No edge leads from a later node of the list to an earlier one. -/
def Forward (g : Graph) (order : List Nat) : Prop := order.Pairwise fun a b => ¬ g.Edge b a

theorem mem_succs {g : Graph} {v u : Nat} : u ∈ g.succs v ↔ g.Edge v u := by
  simp [succs, Edge]

theorem mem_preds {g : Graph} {v u : Nat} : u ∈ g.preds v ↔ g.Edge u v := by
  simp [preds, Edge]

/-! ### What a walk keeps -/

/-- Found nodes are nodes and are listed once, finished ones are found and listed once. -/
structure Walk.Sound (g : Graph) (w : Walk) : Prop where
  seen_nodup : w.seen.Nodup
  seen_lt : ∀ v ∈ w.seen, v < g.size
  order_nodup : w.order.Nodup
  order_seen : ∀ v ∈ w.order, v ∈ w.seen

/-- Found but not finished. -/
def Walk.Open (w : Walk) (v : Nat) : Prop := v ∈ w.seen ∧ v ∉ w.order

/-- Nodes stay found and finished, and every node found on the way is finished. -/
structure Walk.Extends (w w' : Walk) : Prop where
  seen : ∀ v ∈ w.seen, v ∈ w'.seen
  order : ∀ v ∈ w.order, v ∈ w'.order
  same_open : ∀ v, w'.Open v ↔ w.Open v

theorem Walk.Extends.refl (w : Walk) : w.Extends w := ⟨fun _ => id, fun _ => id, fun _ => Iff.rfl⟩

theorem Walk.Extends.trans {u v w : Walk} (h : u.Extends v) (k : v.Extends w) : u.Extends w :=
  ⟨fun x hx => k.seen x (h.seen x hx), fun x hx => k.order x (h.order x hx),
    fun x => (k.same_open x).trans (h.same_open x)⟩

theorem Walk.Sound.length_le {g : Graph} {w w' : Walk} (h : w.Sound g) (k : w.Extends w') :
    w.seen.length ≤ w'.seen.length :=
  (h.seen_nodup.subperm fun v hv => k.seen v hv).length_le

/-- Once as many nodes are found as there are, all are found. -/
theorem Walk.Sound.mem_of_full {g : Graph} {w : Walk} (h : w.Sound g)
    (full : g.size ≤ w.seen.length) {v : Nat} (hv : v < g.size) : v ∈ w.seen := by
  have sub : w.seen ⊆ List.range g.size := fun u hu => List.mem_range.mpr (h.seen_lt u hu)
  have perm := (h.seen_nodup.subperm sub).perm_of_length_le (by simpa using full)
  exact perm.mem_iff.mpr (List.mem_range.mpr hv)

/-- Start on a node that has not been found. -/
def Walk.enter (w : Walk) (v : Nat) : Walk := { w with seen := v :: w.seen }

/-- Finish a node. -/
def Walk.leave (w : Walk) (v : Nat) : Walk := { w with order := v :: w.order }

theorem walkFrom_new {g : Graph} {levels : Nat} {w : Walk} {v : Nat} (new : v ∉ w.seen) :
    g.walkFrom (levels + 1) w v =
      ((g.succs v).foldl (g.walkFrom levels) (w.enter v)).leave v := by
  simp [walkFrom, new, Walk.enter, Walk.leave]

theorem walkFrom_old {g : Graph} {levels : Nat} {w : Walk} {v : Nat} (old : v ∈ w.seen) :
    g.walkFrom levels w v = w := by
  cases levels <;> simp [walkFrom, old]

theorem Walk.Sound.enter {g : Graph} {w : Walk} (h : w.Sound g) {v : Nat} (hv : v < g.size)
    (new : v ∉ w.seen) : (w.enter v).Sound g where
  seen_nodup := List.nodup_cons.mpr ⟨new, h.seen_nodup⟩
  seen_lt u hu := by
    rcases List.mem_cons.mp hu with rfl | hu
    · exact hv
    · exact h.seen_lt u hu
  order_nodup := h.order_nodup
  order_seen u hu := List.mem_cons_of_mem _ (h.order_seen u hu)

theorem Walk.Sound.leave {g : Graph} {w : Walk} (h : w.Sound g) {v : Nat} (pending : w.Open v) :
    (w.leave v).Sound g where
  seen_nodup := h.seen_nodup
  seen_lt := h.seen_lt
  order_nodup := List.nodup_cons.mpr ⟨pending.2, h.order_nodup⟩
  order_seen u hu := by
    rcases List.mem_cons.mp hu with rfl | hu
    · exact pending.1
    · exact h.order_seen u hu

theorem Walk.Sound.open_enter {g : Graph} {w : Walk} (h : w.Sound g) {v : Nat}
    (new : v ∉ w.seen) (u : Nat) : (w.enter v).Open u ↔ u = v ∨ w.Open u := by
  have fresh : v ∉ w.order := fun hv => new (h.order_seen v hv)
  simp only [Walk.Open, Walk.enter, List.mem_cons]
  constructor
  · rintro ⟨rfl | hu, hn⟩
    · exact .inl rfl
    · exact .inr ⟨hu, hn⟩
  · rintro (rfl | ⟨hu, hn⟩)
    · exact ⟨.inl rfl, fresh⟩
    · exact ⟨.inr hu, hn⟩

/-- Entering a node, walking on and leaving it finds the node and keeps the open ones. -/
theorem Walk.Sound.extends_leave {g : Graph} {w w' : Walk} (h : w.Sound g) {v : Nat}
    (new : v ∉ w.seen) (k : (w.enter v).Extends w') : w.Extends (w'.leave v) where
  seen u hu := k.seen u (List.mem_cons_of_mem _ hu)
  order u hu := List.mem_cons_of_mem _ (k.order u hu)
  same_open u := by
    have moved := (k.same_open u).trans (h.open_enter new u)
    simp only [Walk.Open, Walk.leave, List.mem_cons, not_or] at moved ⊢
    constructor
    · rintro ⟨hu, hne, hn⟩
      exact (moved.mp ⟨hu, hn⟩).resolve_left hne
    · intro hu
      have hne : u ≠ v := by
        rintro rfl
        exact new hu.1
      exact ⟨(moved.mpr (.inr hu)).1, hne, (moved.mpr (.inr hu)).2⟩

/-- What walking from one node does, carried along a list of nodes. -/
theorem foldl_walk {g : Graph} {step : Walk → Nat → Walk} (bound : Nat)
    (one : ∀ (w : Walk) (v : Nat), v < g.size → bound ≤ w.seen.length → w.Sound g →
      (step w v).Sound g ∧ w.Extends (step w v) ∧ v ∈ (step w v).seen)
    (vs : List Nat) (hvs : ∀ v ∈ vs, v < g.size) (w : Walk) (enough : bound ≤ w.seen.length)
    (sound : w.Sound g) :
    (vs.foldl step w).Sound g ∧ w.Extends (vs.foldl step w) ∧
      ∀ v ∈ vs, v ∈ (vs.foldl step w).seen := by
  induction vs generalizing w with
  | nil => exact ⟨sound, .refl w, by simp⟩
  | cons v vs ih =>
    obtain ⟨sound₁, ext₁, found₁⟩ := one w v (hvs v (by simp)) enough sound
    obtain ⟨sound₂, ext₂, found₂⟩ := ih (fun u hu => hvs u (List.mem_cons_of_mem _ hu))
      (step w v) (Nat.le_trans enough (sound.length_le ext₁)) sound₁
    refine ⟨sound₂, ext₁.trans ext₂, ?_⟩
    intro u hu
    rcases List.mem_cons.mp hu with rfl | hu
    · exact ext₂.seen _ found₁
    · exact found₂ u hu

/-- With a level for every node not yet found, walking from a node finds it. -/
theorem walkFrom_spec {g : Graph} (inside : g.Inside) (levels : Nat) (w : Walk) (v : Nat)
    (hv : v < g.size) (enough : g.size ≤ w.seen.length + levels) (sound : w.Sound g) :
    (g.walkFrom levels w v).Sound g ∧ w.Extends (g.walkFrom levels w v) ∧
      v ∈ (g.walkFrom levels w v).seen := by
  induction levels generalizing w v with
  | zero =>
    have old := sound.mem_of_full (by omega) hv
    rw [walkFrom_old old]
    exact ⟨sound, .refl w, old⟩
  | succ levels ih =>
    by_cases old : v ∈ w.seen
    · rw [walkFrom_old old]
      exact ⟨sound, .refl w, old⟩
    · rw [walkFrom_new old]
      have room : g.size - levels ≤ (w.enter v).seen.length := by
        simp only [Walk.enter, List.length_cons]
        omega
      obtain ⟨sound', ext', -⟩ := foldl_walk (g.size - levels)
        (fun w u hu enough sound => ih w u hu (by omega) sound) (g.succs v)
        (fun u hu => (inside v u (mem_succs.mp hu)).2) (w.enter v) room (sound.enter hv old)
      have pending := (ext'.same_open v).mpr ((sound.open_enter old v).mpr (.inl rfl))
      exact ⟨sound'.leave pending, sound.extends_leave old ext', pending.1⟩

/-! ### Walks without cycles -/

/-- Finished nodes lead to finished nodes only, and forward in the list. -/
structure Walk.Settled (g : Graph) (w : Walk) : Prop where
  closed : ∀ a ∈ w.order, ∀ b, g.Edge a b → b ∈ w.order
  forward : g.Forward w.order

theorem Walk.Settled.leave {g : Graph} {w : Walk} (h : w.Settled g) {v : Nat}
    (new : v ∉ w.order) (succs : ∀ b, g.Edge v b → b ∈ w.order) : (w.leave v).Settled g where
  closed a ha b hb := by
    rcases List.mem_cons.mp ha with rfl | ha
    · exact List.mem_cons_of_mem _ (succs b hb)
    · exact List.mem_cons_of_mem _ (h.closed a ha b hb)
  forward := List.pairwise_cons.mpr ⟨fun a ha edge => new (h.closed a ha v edge), h.forward⟩

/-- Every open node leads to the one being walked from. The successors of a node are then finished
before it: one still open would lead back to the node, closing a cycle. -/
theorem walkFrom_settled {g : Graph} (inside : g.Inside) (acyclic : g.Acyclic) (levels : Nat)
    (w : Walk) (v : Nat) (hv : v < g.size) (enough : g.size ≤ w.seen.length + levels)
    (sound : w.Sound g) (settled : w.Settled g)
    (reach : ∀ t, w.Open t → Relation.TransGen g.Edge t v) :
    (g.walkFrom levels w v).Settled g := by
  induction levels generalizing w v with
  | zero =>
    rw [walkFrom_old (sound.mem_of_full (by omega) hv)]
    exact settled
  | succ levels ih =>
    by_cases old : v ∈ w.seen
    · rw [walkFrom_old old]
      exact settled
    · rw [walkFrom_new old]
      have opened := sound.open_enter old
      have room : g.size ≤ (w.enter v).seen.length + levels := by
        simp only [Walk.enter, List.length_cons]
        omega
      -- The walk over any list of successors; the open nodes stay those that lead to `v`.
      have along : ∀ (vs : List Nat) (u : Walk), (∀ b ∈ vs, g.Edge v b) → u.Sound g →
          u.Settled g → g.size ≤ u.seen.length + levels →
          (∀ t, u.Open t ↔ t = v ∨ w.Open t) →
          (vs.foldl (g.walkFrom levels) u).Settled g := by
        intro vs
        induction vs with
        | nil => exact fun u _ _ settled _ _ => settled
        | cons b vs ihvs =>
          intro u edges sound settled enough same
          have edge := edges b (by simp)
          obtain ⟨sound₁, ext₁, -⟩ :=
            walkFrom_spec inside levels u b (inside v b edge).2 enough sound
          have settled₁ : (g.walkFrom levels u b).Settled g := by
            refine ih u b (inside v b edge).2 enough sound settled fun t ht => ?_
            rcases (same t).mp ht with rfl | ht
            · exact .single edge
            · exact (reach t ht).tail edge
          exact ihvs (g.walkFrom levels u b) (fun c hc => edges c (List.mem_cons_of_mem _ hc))
            sound₁ settled₁ (by have := sound.length_le ext₁; omega)
            (fun t => (ext₁.same_open t).trans (same t))
      obtain ⟨sound', ext', found⟩ := foldl_walk (g.size - levels)
        (fun w u hu enough sound => walkFrom_spec inside levels w u hu (by omega) sound)
        (g.succs v) (fun u hu => (inside v u (mem_succs.mp hu)).2) (w.enter v) (by omega)
        (sound.enter hv old)
      have settled' := along (g.succs v) (w.enter v) (fun b hb => mem_succs.mp hb)
        (sound.enter hv old) ⟨settled.closed, settled.forward⟩ room opened
      have pending := (ext'.same_open v).mpr ((opened v).mpr (.inl rfl))
      refine settled'.leave pending.2 fun b edge => ?_
      by_contra unfinished
      have back := (opened b).mp
        ((ext'.same_open b).mp ⟨found b (mem_succs.mpr edge), unfinished⟩)
      rcases back with rfl | back
      · exact acyclic b (.single edge)
      · exact acyclic v (.head edge (reach b back))

/-! ### The finishing order -/

theorem Walk.sound_start (g : Graph) : ({} : Walk).Sound g := ⟨.nil, by simp, .nil, by simp⟩

theorem not_open_start (v : Nat) : ¬ ({} : Walk).Open v := by simp [Walk.Open]

theorem finished_spec {g : Graph} (inside : g.Inside) :
    ((List.range g.size).foldl (g.walkFrom g.size) {}).Sound g ∧
      (∀ v, ¬ ((List.range g.size).foldl (g.walkFrom g.size) {}).Open v) ∧
      ∀ v < g.size, v ∈ ((List.range g.size).foldl (g.walkFrom g.size) {}).seen := by
  obtain ⟨sound, ext, found⟩ := foldl_walk 0
    (fun w u hu _ sound => walkFrom_spec inside g.size w u hu (by omega) sound)
    (List.range g.size) (fun v hv => List.mem_range.mp hv) {} (Nat.zero_le _) (Walk.sound_start g)
  exact ⟨sound, fun v hv => not_open_start v ((ext.same_open v).mp hv),
    fun v hv => found v (List.mem_range.mpr hv)⟩

/-- Every node is finished exactly once. -/
theorem finished_perm {g : Graph} (inside : g.Inside) : g.finished.Perm (List.range g.size) := by
  obtain ⟨sound, closed, found⟩ := finished_spec inside
  refine (List.perm_ext_iff_of_nodup sound.order_nodup List.nodup_range).mpr fun v => ?_
  rw [List.mem_range]
  constructor
  · exact fun hv => sound.seen_lt v (sound.order_seen v hv)
  · intro hv
    by_contra unfinished
    exact closed v ⟨found v hv, unfinished⟩

theorem finished_forward {g : Graph} (inside : g.Inside) (acyclic : g.Acyclic) :
    g.Forward g.finished := by
  have along : ∀ (vs : List Nat) (w : Walk), (∀ v ∈ vs, v < g.size) → w.Sound g → w.Settled g →
      (∀ t, ¬ w.Open t) → (vs.foldl (g.walkFrom g.size) w).Settled g := by
    intro vs
    induction vs with
    | nil => exact fun w _ _ settled _ => settled
    | cons v vs ih =>
      intro w hvs sound settled closed
      have hv := hvs v (by simp)
      obtain ⟨sound₁, ext₁, -⟩ := walkFrom_spec inside g.size w v hv (by omega) sound
      exact ih (g.walkFrom g.size w v) (fun u hu => hvs u (List.mem_cons_of_mem _ hu)) sound₁
        (walkFrom_settled inside acyclic g.size w v hv (by omega) sound settled
          (fun t ht => absurd ht (closed t)))
        (fun t ht => closed t ((ext₁.same_open t).mp ht))
  exact (along (List.range g.size) {} (fun v hv => List.mem_range.mp hv) (Walk.sound_start g)
    ⟨by simp, .nil⟩ not_open_start).forward

/-! ### The check of the order -/

theorem late?_eq_none {g : Graph} (order done : List Nat)
    (covered : ∀ v ∈ order, ∀ u, g.Edge u v → u ∈ done ∨ u ∈ order) (forward : g.Forward order) :
    g.late? done order = none := by
  induction order generalizing done with
  | nil => rfl
  | cons v vs ih =>
    have ahead := (List.pairwise_cons.mp forward).1
    have ontime : (g.preds v).find? (· ∉ v :: done) = none := by
      rw [List.find?_eq_none]
      intro u hu
      have edge := mem_preds.mp hu
      rcases covered v (by simp) u edge with old | here
      · simp [old]
      · rcases List.mem_cons.mp here with rfl | later
        · simp
        · exact absurd edge (ahead u later)
    simp only [late?, ontime]
    refine ih (v :: done) (fun a ha u edge => ?_) (List.pairwise_cons.mp forward).2
    rcases covered a (List.mem_cons_of_mem _ ha) u edge with old | here
    · exact .inl (List.mem_cons_of_mem _ old)
    · rcases List.mem_cons.mp here with rfl | later
      · exact .inl (by simp)
      · exact .inr later

theorem forward_of_late?_eq_none {g : Graph} (order done : List Nat) (nodup : order.Nodup)
    (apart : ∀ v ∈ order, v ∉ done) (h : g.late? done order = none) : g.Forward order := by
  induction order generalizing done with
  | nil => exact .nil
  | cons v vs ih =>
    have fresh := (List.nodup_cons.mp nodup).1
    simp only [late?] at h
    split at h
    · cases h
    next ontime =>
      rw [List.find?_eq_none] at ontime
      refine List.pairwise_cons.mpr ⟨fun b hb edge => ?_, ?_⟩
      · have early : b ∈ v :: done := by
          have found := ontime b (mem_preds.mpr edge)
          simpa only [decide_eq_true_eq, not_not] using found
        rcases List.mem_cons.mp early with rfl | old
        · exact fresh hb
        · exact apart b (List.mem_cons_of_mem _ hb) old
      · refine ih (v :: done) (List.nodup_cons.mp nodup).2 (fun a ha => ?_) h
        rw [List.mem_cons, not_or]
        refine ⟨?_, apart a (List.mem_cons_of_mem _ ha)⟩
        rintro rfl
        exact fresh ha

/-- An order that is given lists every node once and only leads forward. -/
theorem order_spec {g : Graph} (inside : g.Inside) {order : List Nat} (h : g.order = .ok order) :
    order.Perm (List.range g.size) ∧ g.Forward order := by
  have perm := finished_perm inside
  simp only [Graph.order] at h
  split at h
  · cases h
  next ontime =>
    cases h
    exact ⟨perm, forward_of_late?_eq_none g.finished [] (perm.nodup_iff.mpr List.nodup_range)
      (by simp) ontime⟩

/-- Without a cycle there is an order. -/
theorem order_of_acyclic {g : Graph} (inside : g.Inside) (acyclic : g.Acyclic) :
    ∃ order, g.order = .ok order := by
  refine ⟨g.finished, ?_⟩
  have ontime : g.late? [] g.finished = none := by
    refine late?_eq_none g.finished [] (fun v _ u edge => .inr ?_) (finished_forward inside acyclic)
    exact (finished_perm inside).mem_iff.mpr (List.mem_range.mpr (inside u v edge).1)
  simp only [Graph.order, ontime]

/-- A rank that grows along every edge excludes cycles. -/
theorem acyclic_of_rank {g : Graph} (rank : Nat → Nat)
    (grows : ∀ a b, g.Edge a b → rank a < rank b) : g.Acyclic := by
  have along : ∀ a b, Relation.TransGen g.Edge a b → rank a < rank b := by
    intro a b path
    induction path with
    | single edge => exact grows _ _ edge
    | tail _ edge ih => exact Nat.lt_trans ih (grows _ _ edge)
  exact fun v cycle => Nat.lt_irrefl _ (along v v cycle)

end Gateware.Graph
