import Gateware.Proofs.Stability

/-!
# The order of clocked statements

Clocked statements read the state only, and what a partial write reads back belongs to the signals
that its own statement assigns. Statements that assign no signal in common can therefore change
places.

## Main results

`clocked_order_free`: a clocked list may be put into any order that keeps statements with a common
assigned signal in turn. A run comes to its end in one order exactly if it does in the other, with
the same writes, and a simulation ticks to the same state.

## Proof strategy

`execAll_beside` is the frame property: two clocked frames over one state that agree on the writes
to what a list assigns run the list alike. It lets two lists without a common signal change places
(`execAll_swap`). Any permitted order is then reached from the written one by moving statements to
the front, one after the other (`run_inOrder_iff`).
-/
namespace Gateware

open Process

/-! ### Clocked frames beside each other -/

namespace Frame

/-- Two clocked frames over one state with the same writes to the signals of `D`. -/
structure Beside (D : Signal → Prop) (f g : Frame) : Prop where
  clocked : f.clocked = true
  state : g.state = f.state
  mode : g.clocked = f.clocked
  writes : ∀ s, D s → f.writes.get? s = g.writes.get? s

variable {D : Signal → Prop} {f g : Frame}

namespace Beside

theorem seen (h : Beside D f g) : f.seen = g.seen := by
  rw [seen_clocked h.clocked, seen_clocked (h.mode.trans h.clocked), h.state]

theorem latest (h : Beside D f g) {s : Signal} (hs : D s) : f.latest s = g.latest s := by
  simp only [Frame.latest, h.writes s hs, h.state]

theorem stored (h : Beside D f g) (s : Signal) (v : Int) :
    Beside D (f.stored s v) (g.stored s v) where
  clocked := h.clocked
  state := h.state
  mode := h.mode
  writes t ht := by rw [stored_writes, stored_writes, h.writes t ht]

/-- What is stored outside `D` on one side does not count. -/
theorem of_stores {E : Signal → Prop} (clocked : f.clocked = true) (stores : Stores E f g)
    (apart : ∀ s, D s → ¬ E s) : Beside D f g where
  clocked := clocked
  state := stores.state_eq
  mode := stores.clocked_eq
  writes s hs := (stores.writes_eq (apart s hs)).symm

end Beside

theorem kept_beside : Kept (Beside D) D fun e => Within (fun _ => True) e.mentions where
  eval h _ _ := by rw [h.seen]
  latest h _ := h.latest
  stored h := h.stored

/-- Clocked frames that agree on the writes to what statements assign run them alike. -/
theorem execAll_beside {f g : Frame} (h : Beside D f g) (ss : List Stmt)
    (drives : ∀ x, DrivenBy (Stmt.targetsOf ss) x → D x) :
    SameEnd (Beside D) ((execAll ss).run.run f) ((execAll ss).run.run g) :=
  execAll_sameEnd kept_beside h ss (Stmt.admitsAll_of_confined ss
    (fun t ht => ⟨.inr fun _ => trivial, fun s hs => drives s ⟨t, ht, hs⟩⟩) fun _ _ => trivial)

/-! ### Lists that change places -/

theorem eq_of_writes {f g : Frame} (state : f.state = g.state) (mode : f.clocked = g.clocked)
    (writes : ∀ s, f.writes.get? s = g.writes.get? s) : f = g := by
  obtain ⟨σ, w, c⟩ := f
  obtain ⟨τ, u, d⟩ := g
  obtain rfl : w = u := OrdMap.ext_get? writes
  cases state
  cases mode
  rfl

theorem stores_of_run {ss : List Stmt} {f g : Frame} (run : (execAll ss).run.run f = (.ok (), g)) :
    Stores (· ∈ Stmt.assigned ss) f g := by
  have stores := execAll_stores ss f
  rw [run] at stores
  exact stores.mono fun s hs => Stmt.drivenBy_iff.mp hs

/-- A list runs to its end in every frame beside, and to a frame beside. -/
theorem Beside.run {ss : List Stmt} {f g f' : Frame} (h : Beside (· ∈ Stmt.assigned ss) f g)
    (run : (execAll ss).run.run f = (.ok (), f')) :
    ∃ g', (execAll ss).run.run g = (.ok (), g') ∧ Beside (· ∈ Stmt.assigned ss) f' g' := by
  have ended := execAll_beside h ss fun x hx => Stmt.drivenBy_iff.mp hx
  rw [run] at ended
  exact ⟨((execAll ss).run.run g).2, Prod.ext ended.1.symm rfl, ended.2⟩

/-- Lists without a common assigned signal can run in either order. -/
theorem execAll_swap {xs ys : List Stmt} {f h : Frame} (clocked : f.clocked = true)
    (apart : ∀ s ∈ Stmt.assigned xs, s ∉ Stmt.assigned ys)
    (run : (execAll (xs ++ ys)).run.run f = (.ok (), h)) :
    (execAll (ys ++ xs)).run.run f = (.ok (), h) := by
  obtain ⟨g, first, second⟩ := run_execAll_append_ok.mp run
  have stored := stores_of_run first
  have stored' := stores_of_run second
  -- The first list leaves alone what the second one reads back, and the other way round.
  have near : Beside (· ∈ Stmt.assigned ys) g f := by
    have beside := Beside.of_stores (D := (· ∈ Stmt.assigned ys)) clocked stored
      fun s other mine => apart s mine other
    exact ⟨beside.mode.trans clocked, beside.state.symm, beside.mode.symm,
      fun s hs => (beside.writes s hs).symm⟩
  obtain ⟨g', second', besideYs⟩ := near.run second
  have stored₁ := stores_of_run second'
  have near' : Beside (· ∈ Stmt.assigned xs) f g' := Beside.of_stores clocked stored₁ apart
  obtain ⟨h', first', besideXs⟩ := near'.run first
  have stored₂ := stores_of_run first'
  -- Each signal has its last write from the list that assigns it.
  have same : h' = h := by
    refine eq_of_writes ?_ ?_ fun s => ?_
    · rw [stored₂.state_eq, stored₁.state_eq, stored'.state_eq, stored.state_eq]
    · rw [stored₂.clocked_eq, stored₁.clocked_eq, stored'.clocked_eq, stored.clocked_eq]
    · by_cases mine : s ∈ Stmt.assigned xs
      · rw [← besideXs.writes s mine, stored'.writes_eq (apart s mine)]
      · rw [stored₂.writes_eq mine]
        by_cases other : s ∈ Stmt.assigned ys
        · exact (besideYs.writes s other).symm
        · rw [stored₁.writes_eq other, stored'.writes_eq other, stored.writes_eq mine]
  exact run_execAll_append_ok.mpr ⟨g', second', same ▸ first'⟩

end Frame

/-! ### Permitted orders -/

namespace Stmt

/-- The places of statements in another order, in which any two statements that assign a common
signal follow each other as before. -/
structure Reordering (ss : List Stmt) (order : List Nat) : Prop where
  perm : order.Perm (List.range ss.length)
  keeps : order.Pairwise fun i j => Overlap ss i j → i < j

instance (ss : List Stmt) (i j : Nat) : Decidable (Overlap ss i j) :=
  decidable_of_iff ((ss[i]?.any fun s => ss[j]?.any fun t =>
      !(assigned [s]).disjoint (assigned [t])) = true) <| by
    simp only [Option.any_eq_true, Bool.not_eq_true', ← Bool.not_eq_true, OrdSet.disjoint_iff,
      not_forall, not_not, exists_prop, Overlap]

instance (ss : List Stmt) (order : List Nat) : Decidable (Reordering ss order) :=
  decidable_of_iff (order.Perm (List.range ss.length) ∧
    order.Pairwise fun i j => Overlap ss i j → i < j) ⟨fun h => ⟨h.1, h.2⟩, fun h => ⟨h.1, h.2⟩⟩

end Stmt

namespace Frame

theorem inOrder_append (ss : List Stmt) (xs ys : List Nat) :
    inOrder ss (xs ++ ys) = inOrder ss xs ++ inOrder ss ys :=
  List.filterMap_append

theorem mem_assigned_inOrder {ss : List Stmt} {xs : List Nat} {x : Signal}
    (h : x ∈ Stmt.assigned (inOrder ss xs)) :
    ∃ i ∈ xs, ∃ s, ss[i]? = some s ∧ x ∈ Stmt.assigned [s] := by
  obtain ⟨s, hs, assigned⟩ := Stmt.mem_assigned.mp h
  obtain ⟨i, hi, found⟩ := List.mem_filterMap.mp hs
  exact ⟨i, hi, s, found, assigned⟩

/-- Two lists of the same places that keep overlapping statements in turn run alike. -/
theorem run_inOrder_iff {ss : List Stmt} {xs ys : List Nat} (perm : ys.Perm xs)
    (written : xs.Pairwise fun i j => Overlap ss i j → i < j)
    (moved : ys.Pairwise fun i j => Overlap ss i j → i < j) {f : Frame}
    (clocked : f.clocked = true) (h : Frame) :
    (execAll (inOrder ss ys)).run.run f = (.ok (), h) ↔
      (execAll (inOrder ss xs)).run.run f = (.ok (), h) := by
  -- Along the written order: its first statement is moved to the front of the other one.
  induction xs generalizing ys f with
  | nil => rw [perm.eq_nil]
  | cons i xs ih =>
    obtain ⟨later, written⟩ := List.pairwise_cons.mp written
    obtain ⟨before, after, rfl⟩ := List.append_of_mem (perm.mem_iff.mpr List.mem_cons_self)
    obtain ⟨moved, movedRest, crossing⟩ := List.pairwise_append.mp moved
    obtain ⟨-, movedAfter⟩ := List.pairwise_cons.mp movedRest
    -- A statement in front of it can have no signal in common with it.
    have apart : ∀ x ∈ Stmt.assigned (inOrder ss before), x ∉ Stmt.assigned (inOrder ss [i]) := by
      intro x early own
      obtain ⟨j, hj, s, found, mine⟩ := mem_assigned_inOrder early
      obtain ⟨k, hk, t, found', other⟩ := mem_assigned_inOrder own
      cases List.mem_singleton.mp hk
      have less : j < i := crossing j hj i List.mem_cons_self ⟨s, found, t, found', x, mine, other⟩
      rcases List.mem_cons.mp (perm.mem_iff.mp (List.mem_append_left _ hj)) with rfl | listed
      · exact Nat.lt_irrefl _ less
      · exact Nat.lt_asymm less (later j listed ⟨t, found', s, found, x, other, mine⟩)
    have rest : (before ++ after).Perm xs :=
      (List.perm_middle.symm.trans perm).cons_inv
    have keeps : (before ++ after).Pairwise fun i j => Overlap ss i j → i < j :=
      List.pairwise_append.mpr ⟨moved, movedAfter, fun a ha b hb =>
        crossing a ha b (List.mem_cons_of_mem _ hb)⟩
    have front : (execAll (inOrder ss (before ++ i :: after))).run.run f = (.ok (), h) ↔
        (execAll (inOrder ss [i] ++ inOrder ss (before ++ after))).run.run f = (.ok (), h) := by
      have split : inOrder ss (before ++ i :: after) =
          inOrder ss before ++ inOrder ss [i] ++ inOrder ss after := by
        rw [← inOrder_append, ← inOrder_append, List.append_assoc]
        rfl
      rw [split, inOrder_append, ← List.append_assoc, run_execAll_append_ok,
        run_execAll_append_ok]
      refine exists_congr fun g => and_congr_left' ⟨execAll_swap clocked apart, ?_⟩
      exact execAll_swap clocked fun x own early => apart x early own
    have head : inOrder ss (i :: xs) = inOrder ss [i] ++ inOrder ss xs :=
      inOrder_append ss [i] xs
    rw [front, head, run_execAll_append_ok, run_execAll_append_ok]
    refine exists_congr fun g => and_congr_right fun run => ?_
    exact ih rest written keeps ((stores_of_run run).clocked_eq.trans clocked)

theorem run_reordered_iff {ss : List Stmt} {order : List Nat} (h : Stmt.Reordering ss order)
    {f : Frame} (clocked : f.clocked = true) (g : Frame) :
    (execAll (inOrder ss order)).run.run f = (.ok (), g) ↔
      (execAll ss).run.run f = (.ok (), g) := by
  have all : inOrder ss (List.range ss.length) = ss := filterMap_range_getElem? ss
  have written : (List.range ss.length).Pairwise fun i j => Overlap ss i j → i < j := by
    refine List.Pairwise.imp ?_ List.pairwise_lt_range
    exact fun less _ => less
  rw [run_inOrder_iff h.perm written h.keeps clocked, all]

end Frame

/-! ### Ticks -/

namespace Simulator

open Gateware.Frame

/-- Clocked lists for the same domains that assign the same signals and run alike. -/
structure SameLoads (sync sync' : OrdMap String (List Stmt)) : Prop where
  domains : ∀ d, sync'.contains d = sync.contains d
  assigned : ∀ d, Stmt.assigned (sync'.getD d []) = Stmt.assigned (sync.getD d [])
  runs : ∀ (d : String) (f g : Frame), f.clocked = true →
    ((execAll (sync'.getD d [])).run.run f = (.ok (), g) ↔
      (execAll (sync.getD d [])).run.run f = (.ok (), g))

namespace SameLoads

variable {sim : Simulator} {sync' : OrdMap String (List Stmt)} (same : SameLoads sim.sync sync')

include same

theorem resettable_eq (d : String) :
    resettable (sync'.getD d []) = resettable (sim.sync.getD d []) := by
  rw [resettable, resettable, same.assigned]

theorem settle_eq : settle.run.run { sim with sync := sync' } =
    ((settle.run.run sim).1, { (settle.run.run sim).2 with sync := sync' }) := by
  have holds : resetRound sync' = resetRound sim.sync := by
    funext domains σ
    have step : holdReset sync' = holdReset sim.sync := by
      funext acc d
      simp only [holdReset, same.resettable_eq]
    rw [resetRound, resetRound, step]
  have settled : { sim with sync := sync' }.settled = sim.settled := by
    simp only [Simulator.settled, holds]
  rw [run_settle, run_settle, settled]

theorem loaded_iff (domain : String) (w : SimState) :
    { sim with sync := sync' }.loaded domain = .ok w ↔ sim.loaded domain = .ok w := by
  have runs := same.runs domain { state := sim.state, clocked := true }
  have resets := same.resettable_eq domain
  have reset : { sim with sync := sync' }.inReset domain = sim.inReset domain := rfl
  simp only [loaded, reset, resets]
  generalize (execAll (sync'.getD domain [])).run.run _ = x at runs ⊢
  generalize (execAll (sim.sync.getD domain [])).run.run _ = y at runs ⊢
  obtain ⟨x | ⟨⟩, f⟩ := x
  · obtain ⟨y | ⟨⟩, g⟩ := y
    · constructor <;> intro h <;> cases h
    · cases (runs g rfl).mpr rfl
  · cases (runs f rfl).mp rfl
    exact Iff.rfl

theorem clockEdge_iff (domain : String) (next : Simulator) :
    { sim with sync := sync' }.clockEdge domain = .ok next ↔
      ∃ plain, sim.clockEdge domain = .ok plain ∧ next = { plain with sync := sync' } := by
  simp only [clockEdge, bind_eq_ok, same.loaded_iff]
  constructor
  · rintro ⟨w, loaded, rest⟩
    cases rest
    exact ⟨_, ⟨w, loaded, rfl⟩, rfl⟩
  · rintro ⟨plain, ⟨w, loaded, rest⟩, rfl⟩
    cases rest
    exact ⟨w, loaded, rfl⟩

/-- A tick comes to the same state, and it fails for one table exactly if it does for the other. -/
theorem tick_eq (domain : String) :
    ((tick domain).run.run { sim with sync := sync' }).2 =
        { ((tick domain).run.run sim).2 with sync := sync' } ∧
      (((tick domain).run.run { sim with sync := sync' }).1 = .ok () ↔
        ((tick domain).run.run sim).1 = .ok ()) := by
  have knows : { sim with sync := sync' }.knows domain = sim.knows domain := by
    simp only [Simulator.knows, same.domains]
  rw [run_tick, run_tick, knows, same.settle_eq]
  split
  · have design := sameDesign_settle sim
    generalize settle.run.run sim = first at design ⊢
    obtain ⟨fault | ⟨⟩, mid⟩ := first
    · exact ⟨rfl, Iff.rfl⟩
    · have alike : SameLoads mid.sync sync' := by rw [design.sync]; exact same
      dsimp only
      cases edge : mid.clockEdge domain with
      | error fault =>
        -- The faults may differ, but both edges fail and the state stays as it had settled.
        cases edge' : { mid with sync := sync' }.clockEdge domain with
        | error fault' =>
          refine ⟨rfl, ?_⟩
          constructor <;> intro h <;> cases h
        | ok next =>
          obtain ⟨plain, found, -⟩ := (alike.clockEdge_iff domain next).mp edge'
          rw [edge] at found
          cases found
      | ok next =>
        have edge' := (alike.clockEdge_iff domain { next with sync := sync' }).mpr ⟨next, edge, rfl⟩
        have after : SameLoads next.sync sync' := by
          rw [(sameDesign_clockEdge edge).sync]
          exact alike
        rw [edge']
        dsimp only
        rw [after.settle_eq]
        exact ⟨rfl, Iff.rfl⟩
  · exact ⟨rfl, Iff.rfl⟩

end SameLoads

theorem sameLoads_insert {sync : OrdMap String (List Stmt)} {domain : String} {ss : List Stmt}
    (listed : sync.get? domain = some ss) {order : List Nat} (h : Stmt.Reordering ss order) :
    SameLoads sync (sync.insert domain (inOrder ss order)) := by
  have at_domain : ∀ d, d = domain ∧ sync.getD d [] = ss ∧
      (sync.insert domain (inOrder ss order)).getD d [] = inOrder ss order ∨
      (sync.insert domain (inOrder ss order)).get? d = sync.get? d := by
    intro d
    by_cases own : d = domain
    · subst own
      refine .inl ⟨rfl, ?_, ?_⟩
      · rw [OrdMap.getD, listed, Option.getD_some]
      · rw [OrdMap.getD, OrdMap.get?_insert_self, Option.getD_some]
    · exact .inr (by rw [OrdMap.get?_insert, if_neg own])
  refine ⟨fun d => ?_, fun d => ?_, fun d f g clocked => ?_⟩
  · rcases at_domain d with ⟨rfl, -, -⟩ | other
    · rw [OrdMap.contains, OrdMap.contains, OrdMap.get?_insert_self, listed]
      rfl
    · rw [OrdMap.contains, OrdMap.contains, other]
  · rcases at_domain d with ⟨-, old, new⟩ | other
    · rw [old, new, Stmt.assigned_perm (inOrder_perm h.perm)]
    · rw [OrdMap.getD, OrdMap.getD, other]
  · rcases at_domain d with ⟨-, old, new⟩ | other
    · rw [old, new]
      exact run_reordered_iff h clocked g
    · rw [OrdMap.getD, OrdMap.getD, other]

/-- Clocked statements may be put into any order that keeps those with a common assigned signal in
turn. Over every state, a clocked frame runs them to an end in the new order exactly if it does in
the old one, with the same writes; so every tick of a simulation comes to the same state, and
succeeds with the one list exactly if it does with the other. -/
theorem clocked_order_free (ss : List Stmt) (order : List Nat) (keeps : Stmt.Reordering ss order) :
    (∀ (f g : Frame), f.clocked = true →
      ((execAll (inOrder ss order)).run.run f = (.ok (), g) ↔
        (execAll ss).run.run f = (.ok (), g))) ∧
    ∀ (sim : Simulator) (domain : String), sim.sync.get? domain = some ss →
      ∀ edge : String,
        let moved : Simulator := { sim with sync := sim.sync.insert domain (inOrder ss order) }
        ((tick edge).run.run moved).2 =
            { ((tick edge).run.run sim).2 with sync := moved.sync } ∧
          (((tick edge).run.run moved).1 = .ok () ↔ ((tick edge).run.run sim).1 = .ok ()) := by
  refine ⟨fun f g clocked => run_reordered_iff keeps clocked g, fun sim domain listed edge => ?_⟩
  exact (sameLoads_insert listed keeps).tick_eq edge

open Signal (wire)

/-- Clocked statements that load a word in two halves, count, and raise a flag. -/
def halves : List Stmt := [
  .assign (.slice (wire 3 "word" 8) 0 4) (wire 2 "count" 4),
  .assign (wire 2 "count" 4) (.binary .add (wire 2 "count" 4) (.int 1)),
  .assign (.slice (wire 3 "word" 8) 4 8) (wire 2 "count" 4),
  .branch (wire 2 "count" 4) [.assign (wire 4 "busy" 1) (.int 1)] []]

def halving : Netlist where
  sync := .ofList [("sys", halves)]
  domains := [
    { name := "sys", clk := wire 0 "sys_clk" 1, rst := some (wire 1 "sys_rst" 1)
      asyncReset := false }]

/-- The two halves of the word stay in turn while the other statements move around them. -/
theorem halves_reordered :
    Stmt.Reordering halves [3, 0, 1, 2] ∧
    (∃ g : Frame, (execAll halves).run.run { state := ∅, clocked := true } = (.ok (), g) ∧
      (execAll (inOrder halves [3, 0, 1, 2])).run.run { state := ∅, clocked := true } =
        (.ok (), g)) ∧
    ∃ sim moved, start halving = .ok sim ∧ sim.sync.get? "sys" = some halves ∧
      moved = { sim with sync := sim.sync.insert "sys" (inOrder halves [3, 0, 1, 2]) } ∧
      ((tick "sys").run.run moved).2 =
        { ((tick "sys").run.run sim).2 with sync := moved.sync } := by
  have keeps : Stmt.Reordering halves [3, 0, 1, 2] := by decide +kernel
  obtain ⟨runs, ticks⟩ := clocked_order_free halves [3, 0, 1, 2] keeps
  obtain ⟨sim, started⟩ := exists_ok (by decide +kernel : (start halving).isOk = true)
  have listed : sim.sync.get? "sys" = some halves :=
    forall_ok (p := fun sim => sim.sync.get? "sys" = some halves) (by decide +kernel) sim started
  have ended : ((execAll halves).run.run { state := ∅, clocked := true }).1 = .ok () := by
    decide +kernel
  have run := eq_ok_of_fst ended
  refine ⟨keeps, ⟨_, run, (runs _ _ rfl).mpr run⟩, sim, _, started, listed, rfl, ?_⟩
  exact (ticks sim "sys" listed "sys").1

end Simulator

end Gateware
