import Gateware.Proofs.Machine.Step
import Gateware.Proofs.Mentions
import Mathlib.Data.List.NodupEquivFin

/-!
# Recovery of the state register

Whatever the state register and all other signals hold, one clock edge leaves the number of a state
in the register.

## Main results

* `tick_isCode`: an edge leaves the number of a state.
* `tick_unused`: a number that no state has leads where the reset state leads.
* `tick_recovers`: both, for every machine that is assembled and starts.

## Proof strategy

An unused number and that of the reset state select the same body, and nothing else that a state
does looks at the register.

A state may read what it assigns, so its statements are not replaced by the ones performed in a
fixed state. The argument is about leaves instead: what every leaf keeps, a run keeps.
-/
namespace Gateware

namespace Stmt

/-- Leaves have all the targets. -/
theorem targetsOf_leavesOf (ss : List Stmt) : targetsOf (leavesOf ss) = targetsOf ss := by
  induction ss using listInduction <;>
    simp_all [targetsOf_eq, leavesOf, leaves, leavesOfArms, targetsOf, targets, targetsOfArms]

theorem targets_eq_leaves (s : Stmt) : s.targets = targetsOf s.leaves := by
  simpa [leavesOf, targetsOf] using (targetsOf_leavesOf [s]).symm

/-- What was rewritten comes from some statement. -/
theorem exists_of_mem_replaceOf {f : Stmt → Except Fault (List Stmt)} {ss us : List Stmt}
    (h : replaceOf f ss = .ok us) {u : Stmt} (hu : u ∈ us) :
    ∃ s ∈ ss, ∃ ts, replace f s = .ok ts ∧ u ∈ ts := by
  induction ss generalizing us with
  | nil =>
    cases h
    cases hu
  | cons s ss ih =>
    obtain ⟨first, rest, hs, hss, rfl⟩ := replaceOf_cons.mp h
    rcases List.mem_append.mp hu with here | later
    · exact ⟨s, .head _, first, hs, here⟩
    · obtain ⟨t, ht, found⟩ := ih hss later
      exact ⟨t, .tail _ ht, found⟩

end Stmt

namespace Frame

variable {P : Frame → Prop}

mutual
theorem exec_keeps (s : Stmt)
    (each : ∀ u ∈ s.leaves, ∀ f g, P f → (exec u).run.run f = (.ok (), g) → P g) {f g : Frame}
    (before : P f) (run : (exec s).run.run f = (.ok (), g)) : P g := by
  match s with
  | .assign lhs rhs | .nextState s | .nextValue target value =>
    exact each _ (.head _) f g before run
  | .branch cond yes no =>
    rw [run_exec_branch] at run
    split at run
    next v _ =>
      split at run
      · exact execAll_keeps no (fun u hu => each u (List.mem_append_right _ hu)) before run
      · exact execAll_keeps yes (fun u hu => each u (List.mem_append_left _ hu)) before run
    next => cases run
  | .select test arms =>
    rw [run_exec_select] at run
    split at run
    next v _ => exact execArms_keeps test.shape v arms each before run
    next => cases run

/-- What every leaf of the statements keeps, the statements keep. -/
theorem execAll_keeps (ss : List Stmt)
    (each : ∀ u ∈ Stmt.leavesOf ss, ∀ f g, P f → (exec u).run.run f = (.ok (), g) → P g)
    {f g : Frame} (before : P f) (run : (execAll ss).run.run f = (.ok (), g)) : P g := by
  match ss with
  | [] =>
    rw [run_execAll_nil] at run
    cases run
    exact before
  | s :: ss =>
    obtain ⟨h, first, rest⟩ := run_execAll_cons_ok.mp run
    have middle := exec_keeps s (fun u hu => each u (List.mem_append_left _ hu)) before first
    exact execAll_keeps ss (fun u hu => each u (List.mem_append_right _ hu)) middle rest

theorem execArms_keeps (shape : Shape) (v : Int) (arms : Arms)
    (each : ∀ u ∈ Stmt.leavesOfArms arms, ∀ f g, P f → (exec u).run.run f = (.ok (), g) → P g)
    {f g : Frame} (before : P f) (run : (execArms shape v arms).run.run f = (.ok (), g)) : P g := by
  match arms with
  | .done =>
    rw [run_execArms_done] at run
    cases run
    exact before
  | .otherwise body => exact execAll_keeps body each before run
  | .arm key body rest =>
    rw [execArms_arm] at run
    split at run
    · exact execAll_keeps body (fun u hu => each u (List.mem_append_left _ hu)) before run
    · exact execArms_keeps shape v rest (fun u hu => each u (List.mem_append_right _ hu)) before run
end

/-- Of two values set in a row the second one stays. -/
theorem stored_stored (f : Frame) (s : Signal) (v w : Int) :
    (f.stored s v).stored s w = f.stored s w := by
  have writes : (f.writes.insert s (s.shape.wrap v)).insert s (s.shape.wrap w) =
      f.writes.insert s (s.shape.wrap w) := by
    refine OrdMap.ext_get? fun t => ?_
    simp only [OrdMap.get?_insert]
    split <;> rfl
  simp only [stored, writes]

end Frame

namespace Machine

open Gateware.Stmt Gateware.Frame Gateware.Simulator

/-- The signals in a machine's statements. -/
def mentioned (m : Machine) : List Signal :=
  (exprsOf (m.bodies.flatMap (·.2))).flatMap Expr.mentions

/-- The number of a state. -/
def IsCode (m : Machine) (v : Int) : Prop := ∃ s code, m.code? s = some code ∧ v = code

/-- What a leaf of a state's rewritten statements can be. -/
inductive Rewritten (m : Machine) (p : Parts) : Stmt → Prop
  | kept {lhs rhs : Expr} (listed : lhs ∈ targetsOf (m.bodies.flatMap (·.2))) :
    Rewritten m p (.assign lhs rhs)
  | move {s : String} {code : Nat} (known : m.code? s = some code) :
    Rewritten m p (.assign p.nextState (m.coded code))
  | load {l : Load} (hl : l ∈ p.loads) {x : Signal} (hx : x ∈ l.signals) (rhs : Expr) :
    Rewritten m p (.assign x rhs)

theorem drives_mem_mentioned {m : Machine} {t : Expr}
    (listed : t ∈ targetsOf (m.bodies.flatMap (·.2))) {x : Signal} (hx : x ∈ t.drives) :
    x ∈ m.mentioned :=
  List.mem_flatMap.mpr ⟨t, targetsOf_subset_exprsOf _ listed, t.drives_subset_mentions hx⟩

theorem driven_subset (m : Machine) : m.driven ⊆ m.mentioned ++ m.watchers := by
  refine append_subset_append (fun x hx => ?_) (fun _ => id)
  obtain ⟨t, ht, hx⟩ := List.mem_flatMap.mp hx
  exact drives_mem_mentioned ht hx

namespace Parts.Built

variable {m : Machine} {supply : Supply} {p : Parts} (built : p.Built m supply)

section Leaves
include built

/-- A state's statements before they were rewritten. -/
theorem exists_body {b : String × List Stmt} (hb : b ∈ p.bodies) :
    ∃ body, (b.1, body) ∈ m.bodies ∧ replaceOf (m.plain p.nextState p.loads) body = .ok b.2 := by
  obtain ⟨⟨s, body⟩, hbody, same, plain⟩ := exists_left built.bodies_spec hb
  exact ⟨body, same ▸ hbody, plain⟩

theorem rewritten_leaf {b : String × List Stmt} (hb : b ∈ p.bodies) {u : Stmt}
    (hu : u ∈ leavesOf b.2) : Rewritten m p u := by
  obtain ⟨body, hbody, plain⟩ := built.exists_body hb
  obtain ⟨v, hv, us, rewritten, mem⟩ := exists_of_mem_replaceOf (leavesOf_replaceOf body plain) hu
  have among := leafAmong_leavesOf body v hv
  rw [replace_leaf among.leaf] at rewritten
  have inside : v.targets ⊆ targetsOf (m.bodies.flatMap (·.2)) := fun t ht =>
    mem_targetsOf_of_subset (fun u hu => List.mem_flatMap.mpr ⟨_, hbody, hu⟩) (among.targets ht)
  cases v with
  | assign lhs rhs =>
    cases rewritten
    obtain rfl := List.mem_singleton.mp mem
    exact .kept (inside (.head _))
  | nextState s =>
    rw [Machine.plain] at rewritten
    split at rewritten
    next code known =>
      cases rewritten
      obtain rfl := List.mem_singleton.mp mem
      exact .move known
    · cases rewritten
  | nextValue target value =>
    rw [Machine.plain] at rewritten
    split at rewritten
    next l found =>
      cases rewritten
      have hl := List.mem_of_find?_eq_some found
      rcases List.mem_pair.mp mem with rfl | rfl
      · exact .load hl l.next_mem _
      · exact .load hl l.enable_mem _
    · cases rewritten
      cases mem
  | branch | select => cases among.leaf

variable (older : ∀ s ∈ m.mentioned ++ m.watchers, s.id.index < supply.nextSignal)
include older

omit built in
theorem older_driven : ∀ s ∈ m.driven, s.id.index < supply.nextSignal :=
  fun s hs => older s (m.driven_subset hs)

/-- New signals are neither mentioned nor do they watch. -/
theorem not_old {x : Signal} (hx : x ∈ p.signals) : x ∉ m.mentioned ++ m.watchers := fun old =>
  absurd (older x old) (Nat.not_lt.mpr (built.supply_le hx))

/-- Leaves that set the next state set it to a state's number. -/
theorem keeps_code {u : Stmt} (rewritten : Rewritten m p u) {f g : Frame}
    (before : m.IsCode (f.latest p.nextState)) (run : (exec u).run.run f = (.ok (), g)) :
    m.IsCode (g.latest p.nextState) := by
  have next_new : p.nextState ∈ p.signals := .tail _ (.head _)
  cases rewritten with
  | @kept lhs rhs listed =>
    have stores := exec_stores (.assign lhs rhs) f
    rw [run] at stores
    rw [stores.latest_eq]
    · exact before
    · rintro ⟨t, ht, driven⟩
      obtain rfl := List.mem_singleton.mp ht
      exact built.not_old older next_new
        (List.mem_append_left _ (drives_mem_mentioned listed driven))
  | @move s code known =>
    obtain ⟨v, value, rfl⟩ := run_assign_signal_ok.mp run
    have coded : v = m.shape.wrap (m.shape.wrap code) := (Except.ok.inj value).symm
    refine ⟨s, code, known, ?_⟩
    rw [latest_stored, if_pos rfl, coded, built.nextShape, Shape.wrap_wrap, Shape.wrap_wrap,
      wrap_code (code?_lt known)]
  | @load l hl x hx rhs =>
    obtain ⟨v, -, rfl⟩ := run_assign_signal_ok.mp run
    rw [latest_stored, if_neg]
    · exact before
    · rintro rfl
      exact built.nextState_ne l hl hx

end Leaves

section Selection
include built

theorem reset_place : ∃ ts, p.bodies[p.reset.2]? = some (p.reset.1, ts) := by
  obtain ⟨inside, here, -⟩ := List.findIdx?_eq_some_iff_getElem.mp built.initial_code
  have listed : m.states[p.reset.2]? = some p.reset.1 :=
    List.getElem?_eq_some_iff.mpr ⟨inside, of_decide_eq_true here⟩
  rw [← built.states_eq, List.getElem?_map] at listed
  obtain ⟨⟨s, ts⟩, place, rfl⟩ := Option.map_eq_some_iff.mp listed
  exact ⟨ts, place⟩

/-- A register value that belongs to no arm selects the reset state's statements. -/
theorem run_default (distinct : m.states.Nodup) {ts : List Stmt}
    (place : p.bodies[p.reset.2]? = some (p.reset.1, ts)) {f : Frame}
    (unmatched : ∀ b i, (b, i) ∈ p.bodies.zipIdx → b.1 ≠ p.reset.1 → f.seen p.state ≠ (i : Nat)) :
    (execAll (p.selection m)).run.run f =
      (execAll ts).run.run (f.stored p.nextState p.reset.2) := by
  let f₁ := f.stored p.nextState (f.seen p.state)
  have first : (exec (.assign p.nextState p.state)).run.run f = (.ok (), f₁) :=
    run_assign_signal_ok.mpr ⟨_, rfl, rfl⟩
  have stores : Stores (· = p.nextState) f f₁ := .store _ _ rfl (.refl _)
  have shows : (Expr.signal p.state).eval f₁.seen = .ok (f.seen p.state) :=
    congrArg Except.ok (stores.seen_eq built.state_ne.1)
  have no_arm : ((p.bodies.zipIdx.filter fun x => x.1.1 ≠ p.reset.1).map fun x =>
      (Literal.sized x.2 m.shape, x.1.2)).find?
        (fun a => p.state.shape.wrap a.1.value = f.seen p.state) = none := by
    refine List.find?_eq_none.mpr fun a ha taken => ?_
    obtain ⟨⟨b, i⟩, hb, rfl⟩ := List.mem_map.mp ha
    obtain ⟨hb, other⟩ := List.mem_filter.mp hb
    have key := (built.key_iff hb i).mpr rfl
    exact unmatched b i hb (of_decide_eq_true other) ((of_decide_eq_true taken).symm.trans key)
  have again : (exec (.assign p.nextState (m.coded p.reset.2))).run.run f₁ =
      (.ok (), f.stored p.nextState p.reset.2) := by
    refine run_assign_signal_ok.mpr ⟨p.reset.2, ?_, (f.stored_stored ..).symm⟩
    change Except.ok (m.shape.wrap (m.shape.wrap p.reset.2)) = _
    rw [Shape.wrap_wrap, wrap_code (code?_lt built.initial_code)]
  rw [selection, Machine.selection, run_execAll_cons]
  simp only [first]
  rw [run_execAll_singleton, run_exec_select]
  simp only [shows]
  rw [execArms_ofList, show (Expr.signal p.state).shape = p.state.shape from rfl, no_arm]
  simp only
  rw [run_execAll_cons, built.own_body distinct place rfl]
  simp only [again]

/-- Whatever the state register shows, the selection runs the statements of some state, with the
next state set to a number. -/
theorem run_selection_any (distinct : m.states.Nodup) (f : Frame) :
    ∃ b ∈ p.bodies, ∃ f', m.IsCode (f'.latest p.nextState) ∧
      (execAll (p.selection m)).run.run f = (execAll b.2).run.run f' := by
  by_cases shows : ∃ k : Nat, k < p.bodies.length ∧ f.seen p.state = k
  · obtain ⟨k, inside, shows⟩ := shows
    have place : p.bodies[k]? = some (p.bodies[k].1, p.bodies[k].2) :=
      List.getElem?_eq_getElem inside
    obtain ⟨f', -, value, same⟩ := built.run_selection distinct place shows
    exact ⟨p.bodies[k], List.getElem_mem inside, f',
      ⟨_, k, built.code?_of_body distinct place, value⟩, same⟩
  · obtain ⟨ts, place⟩ := built.reset_place
    refine ⟨_, List.mem_of_getElem? place, _, ?_, built.run_default distinct place ?_⟩
    · refine ⟨_, _, built.initial_code, ?_⟩
      rw [latest_stored, if_pos rfl, built.nextShape, wrap_code (code?_lt built.initial_code)]
    · intro b i hb _ here
      have inside := (List.getElem?_eq_some_iff.mp (List.mem_zipIdx_iff_getElem?.mp hb)).1
      exact shows ⟨i, inside, here⟩

end Selection

section Settled

variable {domain : String} {first : Simulator} (loaded : Loads (p.netlist m domain) first)
  (older : ∀ s ∈ m.mentioned ++ m.watchers, s.id.index < supply.nextSignal)
  (distinct : m.states.Nodup)
include built loaded older distinct

/-- In a settled state the next state is the number of a state. -/
theorem next_isCode {σ : SimState} (solved : Solved [] first.processes σ) :
    m.IsCode (σ.value p.nextState) := by
  obtain ⟨more, writes, in_before, -, covers, leaves⟩ := run_front loaded
  obtain ⟨g, run, values⟩ := leaves σ solved
  obtain ⟨f₁, run₁, run₂⟩ := run_execAll_append_ok.mp run
  obtain ⟨b, hb, f, code, same⟩ := built.run_selection_any distinct (fresh σ writes)
  rw [same] at run₁
  have code₁ : m.IsCode (f₁.latest p.nextState) :=
    execAll_keeps (P := fun f => m.IsCode (f.latest p.nextState)) b.2
      (fun u hu f g before run => built.keeps_code older (built.rewritten_leaf hb hu) before run)
      code run₁
  -- After the selection only watchers are driven.
  have stores := execAll_stores more f₁
  rw [run₂] at stores
  rw [values _ (covers _ (drivenBy_iff.mp ⟨.signal p.nextState, .head _, .head _⟩)),
    stores.latest_eq]
  · exact code₁
  · intro driven
    have watcher := Parts.drivenBy_before
      (driven.mono (fun t => mem_targetsOf_of_subset in_before) p.nextState)
    exact built.not_old older (.tail _ (.head _)) (List.mem_append_right _ watcher)

end Settled

/-! ### Two registers -/

/-- Signals other than the state register and those that watch. -/
def Beside (m : Machine) (p : Parts) (x : Signal) : Prop := x ≠ p.state ∧ x ∉ m.watchers

section TwoRuns

variable (older : ∀ s ∈ m.mentioned ++ m.watchers, s.id.index < supply.nextSignal)
  (apart : ∀ s ∈ m.mentioned, s ∉ m.watchers)
include built older

theorem beside_new {x : Signal} (hx : x ∈ p.signals) (ne : x ≠ p.state) : Beside m p x :=
  ⟨ne, fun watcher => built.not_old older hx (List.mem_append_right _ watcher)⟩

include apart

theorem beside_mentioned {x : Signal} (hx : x ∈ m.mentioned) : Beside m p x := by
  refine ⟨?_, apart x hx⟩
  rintro rfl
  exact built.not_old older (.head _) (List.mem_append_left _ hx)

/-- A state's statements drive and read neither the state register nor what watches. -/
theorem beside_body {b : String × List Stmt} (hb : b ∈ p.bodies) :
    (∀ x, DrivenBy (targetsOf b.2) x → Beside m p x) ∧ ∀ x ∈ sourcesOf b.2, Beside m p x := by
  constructor
  · rintro x ⟨t, ht, hx⟩
    rw [← targetsOf_leavesOf, targetsOf_eq] at ht
    obtain ⟨u, hu, ht⟩ := List.mem_flatMap.mp ht
    cases built.rewritten_leaf hb hu with
    | kept listed =>
      obtain rfl := List.mem_singleton.mp ht
      exact built.beside_mentioned older apart (drives_mem_mentioned listed hx)
    | move =>
      obtain rfl := List.mem_singleton.mp ht
      obtain rfl := List.mem_singleton.mp hx
      exact built.beside_new older (.tail _ (.head _)) built.state_ne.1.symm
    | @load l hl y hy rhs =>
      obtain rfl := List.mem_singleton.mp ht
      obtain rfl := List.mem_singleton.mp hx
      refine built.beside_new older ?_ fun same => built.state_ne.2 l hl (same ▸ hy)
      exact .tail _ (.tail _ (List.mem_append_left _ (List.mem_flatMap.mpr ⟨l, hl, hy⟩)))
  · intro x hx
    obtain ⟨body, hbody, plain⟩ := built.exists_body hb
    have read := sourcesOf_subset_mentions body (sourcesOf_replaceOf body plain hx)
    obtain ⟨e, he, hx⟩ := List.mem_flatMap.mp read
    refine built.beside_mentioned older apart (List.mem_flatMap.mpr ⟨e, ?_, hx⟩)
    exact mem_exprsOf_of_subset (fun u hu => List.mem_flatMap.mpr ⟨_, hbody, hu⟩) he

/-- The loads of registers drive and read neither the state register nor what watches. -/
theorem covers_registers (places : ∀ t ∈ targetsOf (p.loads.map register), t.isPlace = true) :
    Covers (Beside m p) (targetsOf (p.loads.map register)) (sourcesOf (p.loads.map register)) := by
  have mentioned : ∀ l ∈ p.loads, ∀ x ∈ l.target.mentions, x ∈ m.mentioned := by
    intro l hl x hx
    exact List.mem_flatMap.mpr
      ⟨l.target, targetsOf_subset_exprsOf _ (built.target_listed hl), hx⟩
  refine ⟨places, fun x hx => ?_, fun x hx => ?_⟩
  · obtain ⟨l, hl, driven⟩ := drivenBy_registers hx
    exact built.beside_mentioned older apart
      (mentioned l hl x (l.target.drives_subset_mentions driven))
  · rw [sourcesOf_eq] at hx
    obtain ⟨u, hu, hx⟩ := List.mem_flatMap.mp hx
    obtain ⟨l, hl, rfl⟩ := List.mem_map.mp hu
    obtain ⟨enable, next⟩ := Parts.mem_signals_of_load hl
    have off : ∀ y ∈ l.signals, y ≠ p.state := fun y hy same => built.state_ne.2 l hl (same ▸ hy)
    simp only [register, sources, sourcesOf, Expr.mentions, List.append_nil, List.mem_append,
      List.mem_singleton] at hx
    rcases hx with rfl | selects | rfl
    · exact built.beside_new older enable (off _ l.enable_mem)
    · exact built.beside_mentioned older apart
        (mentioned l hl x (l.target.selectors_subset_mentions selects))
    · exact built.beside_new older next (off _ l.next_mem)

variable {domain : String} {first : Simulator} (loaded : Loads (p.netlist m domain) first)
  (distinct : m.states.Nodup)
include loaded

include distinct in
/-- Settled states that agree on what the logic does not drive, and both select the body for unused
codes, agree on all but the state register and what watches. -/
theorem settled_agree {σ τ : SimState} (solved : Solved [] first.processes σ)
    (solved' : Solved [] first.processes τ)
    (undriven : ∀ x ≠ p.state, x ∉ assigned (p.comb m) → σ.value x = τ.value x)
    (unmatched : ∀ b i, (b, i) ∈ p.bodies.zipIdx → b.1 ≠ p.reset.1 →
      σ.value p.state ≠ (i : Nat) ∧ τ.value p.state ≠ (i : Nat)) :
    ∀ x, Beside m p x → σ.value x = τ.value x := by
  obtain ⟨more, writes, in_before, sub, covers, leaves⟩ := run_front loaded
  obtain ⟨g, run, values⟩ := leaves σ solved
  obtain ⟨g', run', values'⟩ := leaves τ solved'
  obtain ⟨f₁, run₁, run₂⟩ := run_execAll_append_ok.mp run
  obtain ⟨f₁', run₁', run₂'⟩ := run_execAll_append_ok.mp run'
  obtain ⟨ts, place⟩ := built.reset_place
  have hb := List.mem_of_getElem? place
  -- What is not in `writes` is either not driven at all or watches.
  have outside : ∀ x, Beside m p x → x ∉ writes → σ.value x = τ.value x := by
    rintro x ⟨ne, unwatched⟩ hx
    refine undriven x ne fun driven => ?_
    rcases drivenBy_append.mp (drivenBy_iff.mpr driven) with selected | before
    · exact hx (covers x (drivenBy_iff.mp selected))
    · exact unwatched (Parts.drivenBy_before before)
  have unwritten : p.state ∉ writes := fun hx =>
    Parts.registers_undriven loaded Parts.state_mem_assigned_sync (sub _ hx)
  have alike : Alike (Beside m p) (fresh σ writes) (fresh τ writes) := by
    refine ⟨rfl, rfl, fun _ _ clocked => (nomatch clocked), fun x hx => ?_⟩
    by_cases written : x ∈ writes
    · rw [latest_fresh_of_mem written, latest_fresh_of_mem written]
    · rw [latest_fresh_of_not_mem written, latest_fresh_of_not_mem written, outside x hx written]
  have shows : ∀ ρ : SimState, (fresh ρ writes).seen p.state = ρ.value p.state := fun _ =>
    latest_fresh_of_not_mem unwritten
  rw [built.run_default distinct place fun b i hb other =>
    (shows σ).symm ▸ (unmatched b i hb other).1] at run₁
  rw [built.run_default distinct place fun b i hb other =>
    (shows τ).symm ▸ (unmatched b i hb other).2] at run₁'
  have places : ∀ t ∈ targetsOf ts, t.isPlace = true := by
    intro t ht
    refine t.isPlace_of_isTarget (loaded.wellDriven.combTargets t ?_)
    exact mem_targetsOf_of_subset (List.subset_append_left _ _) ((Parts.selection_covers hb).1 ht)
  obtain ⟨drives, sources⟩ := built.beside_body older apart hb
  have ended := execAll_alike (alike.stored p.nextState p.reset.2) ts ⟨places, drives, sources⟩
  rw [run₁, run₁'] at ended
  -- What follows drives watchers only.
  have quiet : ∀ {f g : Frame} (x : Signal), Beside m p x →
      (execAll more).run.run f = (.ok (), g) → g.latest x = f.latest x := by
    intro f g x hx run
    have stores := execAll_stores more f
    rw [run] at stores
    exact stores.latest_eq fun driven => hx.2
      (Parts.drivenBy_before (driven.mono (fun t => mem_targetsOf_of_subset in_before) x))
  intro x hx
  by_cases written : x ∈ writes
  · rw [values x written, values' x written, quiet x hx run₂, quiet x hx run₂', ended.2.latest x hx]
  · exact outside x hx written

/-- On a clock edge in states that agree beside the state register, the state register and the
registers of all loads are written alike. -/
theorem sync_agree {σ τ : SimState} (agree : ∀ x, Beside m p x → σ.value x = τ.value x)
    {g h : Frame}
    (run : (execAll (p.sync m)).run.run { state := σ, clocked := true } = (.ok (), g))
    (run' : (execAll (p.sync m)).run.run { state := τ, clocked := true } = (.ok (), h)) :
    g.writes.get? p.state = h.writes.get? p.state ∧
      ∀ l ∈ p.loads, ∀ x ∈ l.target.drives, g.writes.get? x = h.writes.get? x := by
  have next := agree p.nextState
    (built.beside_new older (.tail _ (.head _)) built.state_ne.1.symm)
  constructor
  · rw [built.run_sync_state (older_driven older) run,
      built.run_sync_state (older_driven older) run', next]
  have split : p.sync m = (.assign p.state p.nextState :: p.loads.map register) ++
      (p.start.toList.map (fun s => .assign s (.int 0)) ++ p.after m) := by
    rw [Parts.sync, List.cons_append]
  rw [split] at run run'
  obtain ⟨f₁, run₁, run₂⟩ := run_execAll_append_ok.mp run
  obtain ⟨f₁', run₁', run₂'⟩ := run_execAll_append_ok.mp run'
  obtain ⟨f₀, assign, run₁⟩ := run_execAll_cons_ok.mp run₁
  obtain ⟨f₀', assign', run₁'⟩ := run_execAll_cons_ok.mp run₁'
  obtain ⟨v, value, rfl⟩ := run_assign_signal_ok.mp assign
  obtain ⟨v', value', rfl⟩ := run_assign_signal_ok.mp assign'
  obtain rfl : v = v' := by
    rw [← Except.ok.inj value, ← Except.ok.inj value']
    exact next
  have alike := (alike_new true agree).stored p.state v
  have places : ∀ t ∈ targetsOf (p.loads.map register), t.isPlace = true := by
    intro t ht
    refine t.isPlace_of_isTarget (loaded.wellDriven.syncTargets (domain, p.sync m) (.head _) t ?_)
    rw [split]
    exact mem_targetsOf_of_subset (fun u hu => List.mem_append_left _ (.tail _ hu)) ht
  have covers := built.covers_registers older apart places
  have ended := execAll_alike alike (p.loads.map register) covers
  rw [run₁, run₁'] at ended
  have quiet : ∀ {f g : Frame} (x : Signal), x ∉ p.signals → x ∉ m.watchers →
      (execAll (p.start.toList.map (fun s => .assign s (.int 0)) ++ p.after m)).run.run f =
        (.ok (), g) → g.writes.get? x = f.writes.get? x := by
    intro f g x old unwatched run
    have stores := execAll_stores (p.start.toList.map (fun s => .assign s (.int 0)) ++ p.after m) f
    rw [run] at stores
    refine stores.writes_eq fun driven => ?_
    rcases drivenBy_rest driven with start | watcher
    · exact old (.tail _ (.tail _ (List.mem_append_right _ start)))
    · exact unwatched watcher
  intro l hl x hx
  have listed := drives_mem_mentioned (built.target_listed hl) hx
  have old := built.register_old (older_driven older) hl hx
  rw [quiet x old (apart x listed) run₂, quiet x old (apart x listed) run₂', ended.2.writes]

end TwoRuns

section Edge

variable {domain : String} {first : Simulator} (loaded : Loads (p.netlist m domain) first)
include loaded

omit built in
/-- Settling ends in a settled state with the same registers. -/
theorem settle_ok (σ : SimState) (cycles : OrdMap String Nat) :
    ∃ σ₁, settle.run.run { first with state := σ, cycles } =
        (.ok (), { first with state := σ₁, cycles }) ∧
      settle.run.run { first with state := σ₁, cycles } =
        (.ok (), { first with state := σ₁, cycles }) ∧
      ∀ x, x ∉ assigned (p.comb m) → σ₁.get? x = σ.get? x := by
  have memories := Parts.memories_eq loaded
  have ended := eq_ok_of_fst (pass_ok (Parts.total loaded) [] σ)
  generalize (pass [] first.processes σ).2 = σ₁ at ended
  have settles : ∀ ρ, pass [] first.processes ρ = (.ok (), σ₁) →
      settle.run.run { first with state := ρ, cycles } =
        (.ok (), { first with state := σ₁, cycles }) := by
    intro ρ ended
    refine (run_settle_of_no_domains ?_).trans ?_
    · exact loaded.domains
    · simp only [memories, ended]
  refine ⟨σ₁, settles σ ended, settles σ₁ (pass_idem loaded.ready (Parts.sound loaded) ended),
    fun x hx => ?_⟩
  have kept := pass_undriven (Parts.sound loaded) (s := x)
    (fun driven => hx (Parts.driven_processes loaded driven)) [] σ
  rwa [ended] at kept

omit built in
/-- A clock edge first settles, so it starts from a settled state with the same registers. -/
theorem exists_settled (σ : SimState) (cycles : OrdMap String Nat) :
    ∃ σ₁, Solved [] first.processes σ₁ ∧
      (∀ x, x ∉ assigned (p.comb m) → σ₁.value x = σ.value x) ∧
      settle.run.run { first with state := σ₁, cycles } =
        (.ok (), { first with state := σ₁, cycles }) ∧
      (tick domain).run.run { first with state := σ, cycles } =
        (tick domain).run.run { first with state := σ₁, cycles } := by
  obtain ⟨σ₁, ended, stays, keeps⟩ := settle_ok loaded σ cycles
  refine ⟨σ₁, Parts.solved loaded stays, fun x hx => value_congr (keeps x hx), stays, ?_⟩
  rw [run_tick, run_tick, ended, stays, if_pos (Parts.knows_domain loaded σ cycles),
    if_pos (Parts.knows_domain loaded σ₁ cycles)]

variable (older : ∀ s ∈ m.mentioned ++ m.watchers, s.id.index < supply.nextSignal)
  (distinct : m.states.Nodup)
include built older distinct

theorem tick_isCode (σ : SimState) (cycles : OrdMap String Nat) :
    ∃ after, (tick domain).run.run { first with state := σ, cycles } = (.ok (), after) ∧
      m.IsCode (after.peek p.state) := by
  obtain ⟨σ₁, solved, -, settled, same⟩ := exists_settled loaded σ cycles
  obtain ⟨g, run⟩ := run_sync_ok loaded σ₁
  obtain ⟨after, ticked, registers⟩ := run_tick_settled loaded settled run
  refine ⟨after, same.trans ticked, ?_⟩
  obtain ⟨s, code, known, next⟩ := built.next_isCode loaded older distinct solved
  refine ⟨s, code, known, SimState.value_of_get? ?_⟩
  rw [registers _ Parts.state_mem_assigned_sync, built.run_sync_state (older_driven older) run,
    next, built.stateShape, wrap_code (code?_lt known)]
  rfl

/-- From a number of no state an edge goes as from the reset state. -/
theorem tick_unused (apart : ∀ s ∈ m.mentioned, s ∉ m.watchers) {σ τ : SimState}
    (unused : ¬ m.IsCode (σ.value p.state)) (shows : τ.value p.state = p.reset.2)
    (agree : ∀ x ≠ p.state, σ.value x = τ.value x) (cycles : OrdMap String Nat) :
    ∃ after after',
      (tick domain).run.run { first with state := σ, cycles } = (.ok (), after) ∧
      (tick domain).run.run { first with state := τ, cycles } = (.ok (), after') ∧
      after.peek p.state = after'.peek p.state ∧
      ∀ l ∈ p.loads, ∀ x ∈ l.target.drives, after.peek x = after'.peek x := by
  obtain ⟨σ₁, solved, keeps, settled, same⟩ := exists_settled loaded σ cycles
  obtain ⟨τ₁, solved', keeps', settled', same'⟩ := exists_settled loaded τ cycles
  have register := Parts.registers_undriven loaded (Parts.state_mem_assigned_sync (m := m))
  have unmatched : ∀ b i, (b, i) ∈ p.bodies.zipIdx → b.1 ≠ p.reset.1 →
      σ₁.value p.state ≠ (i : Nat) ∧ τ₁.value p.state ≠ (i : Nat) := by
    intro b i hb other
    have known : m.code? b.1 = some i :=
      built.code?_of_body distinct (List.mem_zipIdx_iff_getElem?.mp hb)
    rw [keeps _ register, keeps' _ register, shows]
    refine ⟨fun here => unused ⟨b.1, i, known, here⟩, fun here => other ?_⟩
    -- The reset state has its number alone.
    obtain ⟨ts, place⟩ := built.reset_place
    obtain rfl : p.reset.2 = i := Int.ofNat_inj.mp here
    exact congrArg Prod.fst
      (Option.some.inj ((List.mem_zipIdx_iff_getElem?.mp hb).symm.trans place))
  have beside := built.settled_agree older apart loaded distinct solved solved'
    (fun x ne undriven => by rw [keeps x undriven, keeps' x undriven, agree x ne]) unmatched
  obtain ⟨g, run⟩ := run_sync_ok loaded σ₁
  obtain ⟨h, run'⟩ := run_sync_ok loaded τ₁
  obtain ⟨written, targets⟩ := built.sync_agree older apart loaded beside run run'
  obtain ⟨after, ticked, registers⟩ := run_tick_settled loaded settled run
  obtain ⟨after', ticked', registers'⟩ := run_tick_settled loaded settled' run'
  refine ⟨after, after', same.trans ticked, same'.trans ticked', ?_, fun l hl x hx => ?_⟩
  · refine value_congr ?_
    rw [registers _ Parts.state_mem_assigned_sync, registers' _ Parts.state_mem_assigned_sync,
      ← written, built.run_sync_state (older_driven older) run]
    rfl
  · have listed := Parts.target_mem_assigned_sync (m := m) hl hx
    have stored := registers x listed
    have stored' := registers' x listed
    rw [← targets l hl x hx] at stored'
    cases write : g.writes.get? x with
    | some v =>
      rw [write] at stored stored'
      exact value_congr (stored.trans stored'.symm)
    | none =>
      rw [write] at stored stored'
      have kept : after.peek x = σ₁.value x := value_congr stored
      have kept' : after'.peek x = τ₁.value x := value_congr stored'
      have mentioned := drives_mem_mentioned (built.target_listed hl) hx
      rw [kept, kept', beside x (built.beside_mentioned older apart mentioned)]

end Edge

end Parts.Built

/-- Numbers are given to the states one to one, without gaps. -/
theorem exists_codes {m : Machine} (distinct : m.states.Nodup) :
    ∃ number : {s // s ∈ m.states} ≃ Fin m.states.length,
      ∀ s, m.code? s.1 = some (number s).val := by
  let places := List.Nodup.getEquiv m.states distinct
  refine ⟨places.symm, fun s => code?_of_place distinct ?_⟩
  rw [List.getElem?_eq_getElem (Fin.isLt _)]
  exact congrArg (fun x => some x.1) (places.apply_symm_apply s)

/-- Numbers of states are those that the state register has room for, and it starts at the one of
the reset state. From any state of all signals one clock edge leaves the number of a state in the
register. From a value that is no number of a state it leaves the register and the targets of all
registered loads as it does from the reset state. -/
theorem tick_recovers (m : Machine) (domain : String) (supply rest : Supply) (c : Compiled)
    (compiled : (m.compile domain).run.run supply = (.ok c, rest)) (distinct : m.states.Nodup)
    (older : ∀ s ∈ m.mentioned ++ m.watchers, s.id.index < supply.nextSignal)
    (apart : ∀ s ∈ m.mentioned, s ∉ m.watchers) (first : Simulator)
    (started : Starts c.netlist first) :
    (∃ number : {s // s ∈ m.states} ≃ Fin m.states.length,
      ∀ s, m.code? s.1 = some (number s).val) ∧
    (∀ s code, m.code? s = some code → code < 2 ^ c.state.shape.width) ∧
    (∃ s, m.initial = .ok (s, c.resetCode) ∧ m.code? s = some c.resetCode ∧
      c.state.resetValue = c.resetCode) ∧
    (∀ (σ : SimState) cycles, ∃ after,
      (tick (m.domain.getD domain)).run.run { first with state := σ, cycles } = (.ok (), after) ∧
      m.IsCode (after.peek c.state)) ∧
    (∀ (σ τ : SimState) cycles, ¬ m.IsCode (σ.value c.state) → τ.value c.state = c.resetCode →
      (∀ x ≠ c.state, σ.value x = τ.value x) → ∃ after after',
        (tick (m.domain.getD domain)).run.run { first with state := σ, cycles } = (.ok (), after) ∧
        (tick (m.domain.getD domain)).run.run { first with state := τ, cycles } =
          (.ok (), after') ∧
        after.peek c.state = after'.peek c.state ∧
        ∀ t ∈ m.loads, ∀ x ∈ t.drives, after.peek x = after'.peek x) := by
  obtain ⟨p, built, state, reset, netlist⟩ := compile_ok compiled
  rw [netlist] at started
  obtain ⟨fresh, loaded, -, rfl⟩ := started
  rw [state, reset]
  refine ⟨exists_codes distinct, fun s code known => ?_, ⟨p.reset.1, built.initial,
    built.initial_code, ?_⟩, fun σ cycles => ?_, fun σ τ cycles unused shows same => ?_⟩
  · rw [built.stateShape]
    have inside := code?_lt known
    exact lt_two_pow_bitsFor (by omega)
  · rw [built.stateReset, wrap_code (code?_lt built.initial_code)]
  · exact built.tick_isCode loaded older distinct σ cycles
  · obtain ⟨after, after', ticked, ticked', register, targets⟩ :=
      built.tick_unused loaded older distinct apart unused shows same cycles
    refine ⟨after, after', ticked, ticked', register, fun t ht => ?_⟩
    obtain ⟨l, hl, rfl⟩ := List.mem_map.mp (built.targets ▸ ht)
    exact targets l hl

open Sample

namespace Sample

/-- A light that one state switches and looks at. -/
def lamp : Signal := ⟨⟨3⟩, "lamp", .unsigned 1, 0, false⟩

/-- Three states, the last one after reset, and a register that is loaded whole and in part. -/
def walk : Machine where
  name := "walk"
  resetState := some "home"
  bodies := [
    ("away", [.nextState "back"]),
    ("back", [.nextState "start", .nextValue (.slice level 0 2) (.int 3)]),
    ("home", [.assign lamp (.int 1), .branch lamp
      [.nextState "away", .nextValue level (.binary .add level (.int 5))] []])]
  aliases := .ofList [("start", "home")]
  events e :=
    if e = .beforeEntering then .ofList [("home", ⟨⟨4⟩, "near", .unsigned 1, 0, false⟩)] else ∅

end Sample

theorem walk_trial : walk.trial ⟨10, 0⟩ (fun c sim => decide
    (c.resetCode = 2 ∧ sim.peek c.state = 2 ∧ ((tick "sys").run.run sim).2.peek c.state = 0 ∧
      ((tick "sys").run.run sim).2.peek level = 3)) = true := by
  decide +kernel

theorem walk_recovers :
    ∃ c rest first after, (walk.compile "sys").run.run ⟨10, 0⟩ = (.ok c, rest) ∧
      start c.netlist = .ok first ∧ ¬ walk.IsCode 3 ∧
      (tick "sys").run.run { first with state := first.state.insert c.state 3 } = (.ok (), after) ∧
      after.peek c.state = 0 ∧ after.peek level = 3 := by
  obtain ⟨c, rest, first, compiled, started, checked⟩ := of_trial walk_trial
  obtain ⟨reset, home, moved, loaded⟩ := of_decide_eq_true checked
  have unused : ¬ walk.IsCode 3 := by
    rintro ⟨s, code, known, same⟩
    have inside : code < 3 := code?_lt known
    omega
  obtain ⟨-, -, -, -, recovers⟩ := tick_recovers walk "sys" ⟨10, 0⟩ rest c compiled
    (by decide +kernel) (by decide +kernel) (by decide +kernel) first
    (starts_of_start started)
  let lost : SimState := first.state.insert c.state 3
  have register : lost.value c.state = 3 :=
    SimState.value_of_get? (OrdMap.get?_insert_self ..)
  have others : ∀ x ≠ c.state, lost.value x = first.state.value x := fun x ne =>
    value_congr ((OrdMap.get?_insert ..).trans (if_neg ne))
  obtain ⟨after, after', ticked, ticked', state, targets⟩ :=
    recovers lost first.state first.cycles (register.symm ▸ unused)
      (by rw [reset]; exact home) others
  have listed : .signal level ∈ walk.loads := by decide +kernel
  have ended : ((tick "sys").run.run first).2 = after' := congrArg Prod.snd ticked'
  rw [ended] at moved loaded
  exact ⟨c, rest, first, after, compiled, started, unused, ticked, state.trans moved,
    (targets _ listed level (.head _)).trans loaded⟩

end Machine

end Gateware
