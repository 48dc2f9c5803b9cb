import Gateware.Proofs.Folding.Store

/-!
# Folding whole lists

A list of combinational statements is folded without loss if no signal that it assigns is read in it
and each of them either only takes values of its own width or is unsigned, takes unsigned values
only and is never cut. Both ways of every branch are followed, the one not taken from the same
frame, so that one invariant gives the values on the way taken and the widths on the other.
-/
namespace Gateware

/-! ### The signals of an environment -/

namespace Symbolic

theorem mem_keys_merge {cond : Expr} {yes no : Symbolic} {x : Signal} :
    x ∈ (merge cond yes no).keys ↔ x ∈ yes.keys ∨ x ∈ no.keys := by
  rw [merge, OrdMap.keys_ofKeys, OrdSet.mem_union]

mutual
theorem mem_keys_store (env : Symbolic) (t e : Expr) {x : Signal} :
    x ∈ (env.store t e).keys ↔ x ∈ env.keys ∨ x ∈ t.drives := by
  match t with
  | .signal s =>
    rw [store, OrdMap.mem_keys_insert, Expr.drives, List.mem_singleton]
    exact or_comm
  | .slice a start stop =>
    rw [store, Expr.drives]
    exact mem_keys_store env a _
  | .concat ps =>
    rw [store, Expr.drives]
    exact mem_keys_storeParts env ps _ 0
  | .mux q cs =>
    rw [Expr.drives]
    match cs with
    | [] => exact mem_keys_storeChoices env q [] e 0 _
    | [c] =>
      rw [store, Expr.drivesOf, Expr.drivesOf, List.append_nil]
      exact mem_keys_store env c e
    | c :: d :: cs => exact mem_keys_storeChoices env q (c :: d :: cs) e 0 _
  | .literal _ | .ref _ | .unary .. | .binary .. | .replicate .. =>
    simp [store, Expr.drives]
termination_by structural t

theorem mem_keys_storeParts (env : Symbolic) (ps : List Expr) (e : Expr) (lo : Nat) {x : Signal} :
    x ∈ (env.storeParts ps e lo).keys ↔ x ∈ env.keys ∨ x ∈ Expr.drivesOf ps := by
  match ps with
  | [] => simp [storeParts, Expr.drivesOf]
  | p :: ps =>
    rw [storeParts, mem_keys_storeParts _ ps, mem_keys_store env p, Expr.drivesOf, List.mem_append,
      or_assoc]
termination_by structural ps

theorem mem_keys_storeChoices (env : Symbolic) (q : Expr) (cs : List Expr) (e : Expr)
    (i last : Nat) {x : Signal} :
    x ∈ (env.storeChoices q cs e i last).keys ↔ x ∈ env.keys ∨ x ∈ Expr.drivesOf cs := by
  match cs with
  | [] => simp [storeChoices, Expr.drivesOf]
  | c :: cs =>
    rw [storeChoices, mem_keys_storeChoices _ q cs, mem_keys_merge, mem_keys_store env c,
      Expr.drivesOf, List.mem_append]
    grind
termination_by structural cs
end

end Symbolic

namespace Stmt

theorem drivenBy_append {ts us : List Expr} {x : Signal} :
    Frame.DrivenBy (ts ++ us) x ↔ Frame.DrivenBy ts x ∨ Frame.DrivenBy us x := by
  simp only [Frame.DrivenBy, List.mem_append, or_and_right, exists_or]

mutual
theorem mem_keys_fold (env : Symbolic) (s : Stmt) (plain : s.sugar? = none) {x : Signal} :
    x ∈ (fold env s).keys ↔ x ∈ env.keys ∨ Frame.DrivenBy s.targets x := by
  match s with
  | .assign lhs rhs =>
    rw [fold, Symbolic.mem_keys_store]
    simp [Frame.DrivenBy, targets]
  | .branch cond yes no =>
    obtain ⟨hyes, hno⟩ := Option.or_eq_none_iff.mp plain
    rw [fold, Symbolic.mem_keys_merge, mem_keys_foldAll env yes hyes, mem_keys_foldAll env no hno,
      targets, drivenBy_append]
    grind
  | .select test arms =>
    rw [fold, targets]
    exact mem_keys_foldArms env test arms plain
  | .nextState _ | .nextValue .. => cases plain

theorem mem_keys_foldAll (env : Symbolic) (ss : List Stmt) (plain : sugarOf? ss = none)
    {x : Signal} :
    x ∈ (foldAll env ss).keys ↔ x ∈ env.keys ∨ Frame.DrivenBy (targetsOf ss) x := by
  match ss with
  | [] => simp [foldAll, Frame.DrivenBy, targetsOf]
  | s :: ss =>
    obtain ⟨first, others⟩ := Option.or_eq_none_iff.mp plain
    rw [foldAll, mem_keys_foldAll _ ss others, mem_keys_fold env s first, targetsOf,
      drivenBy_append, or_assoc]

theorem mem_keys_foldArms (env : Symbolic) (test : Expr) (arms : Arms)
    (plain : sugarOfArms? arms = none) {x : Signal} :
    x ∈ (foldArms env test arms).keys ↔ x ∈ env.keys ∨ Frame.DrivenBy (targetsOfArms arms) x := by
  match arms with
  | .done => simp [foldArms, Frame.DrivenBy, targetsOfArms]
  | .otherwise body => exact mem_keys_foldAll env body plain
  | .arm key body rest =>
    obtain ⟨here, later⟩ := Option.or_eq_none_iff.mp plain
    rw [foldArms, Symbolic.mem_keys_merge, mem_keys_foldAll env body here,
      mem_keys_foldArms env test rest later, targetsOfArms, drivenBy_append]
    grind
end

/-- Folding gives an expression to exactly the signals that are assigned. -/
theorem keys_folded {ss : List Stmt} (plain : sugarOf? ss = none) :
    (folded ss).keys = assigned ss := by
  refine OrdSet.ext_mem fun x => ?_
  rw [folded, mem_keys_foldAll ∅ ss plain, drivenBy_iff]
  simp

/-! ### Statements in step -/

mutual
/-- Whether all keys have the shape of the value that is tested. -/
def keysFit : Stmt → Bool
  | .branch _ yes no => keysFitOf yes && keysFitOf no
  | .select test arms => keysFitOfArms test.shape arms
  | _ => true

def keysFitOf : List Stmt → Bool
  | [] => true
  | s :: ss => s.keysFit && keysFitOf ss

def keysFitOfArms (shape : Shape) : Arms → Bool
  | .done => true
  | .otherwise body => keysFitOf body
  | .arm key body rest => decide (key.shape = shape) && keysFitOf body && keysFitOfArms shape rest
end

def assign? : Stmt → Option (Expr × Expr)
  | .assign lhs rhs => some (lhs, rhs)
  | _ => none

/-- The targets and values of all assignments. -/
def assigns (ss : List Stmt) : List (Expr × Expr) := (leavesOf ss).filterMap assign?

/-- A value that a target can take: those signals that take it as it is suit it, and no loose one is
cut. -/
structure Assignable (A loose : Signal → Prop) (lhs rhs : Expr) : Prop where
  regular : lhs.isRegular = true
  bounded : lhs.width ≤ maxWidth
  driven : ∀ s ∈ lhs.drives, A s
  nested : ∀ s ∈ lhs.nested, ¬ loose s
  width : ∀ s ∈ lhs.direct, ¬ loose s → rhs.width = s.width
  unsigned : ∀ s ∈ lhs.direct, loose s → rhs.shape.signed = false
  literal : ∀ c, rhs = .literal c → c.shape.wrap c.value = c.value
  fit : rhs.unfit lhs.width = false

variable {A loose : Signal → Prop} {ρ : Valuation}

mutual
/-- A statement does to an environment what it does to a frame, and does not stop there. -/
theorem fold_agrees (s : Stmt) (plain : s.sugar? = none) (keys : s.keysFit = true)
    (inputs : Symbolic.Inputs A ρ (s.exprs.flatMap Expr.refs) s.sources)
    (assignable : ∀ a ∈ s.leaves.filterMap assign?, Assignable A loose a.1 a.2)
    {env : Symbolic} {f : Frame} (agrees : env.Agrees A loose ρ f) :
    overflows env s = false ∧
      ∃ g, (Frame.exec s).run.run f = (.ok (), g) ∧ (fold env s).Agrees A loose ρ g := by
  match s with
  | .assign lhs rhs =>
    simp only [exprs, sources, List.flatMap_cons, List.flatMap_nil, List.append_nil] at inputs
    have fits : Assignable A loose lhs rhs := assignable (lhs, rhs) (.head _)
    obtain ⟨v, value, seen, wrapped⟩ := inputs.right.eval agrees
    have feeds : Symbolic.Feeds loose ρ rhs lhs v :=
      ⟨fits.fit, Expr.fit_hasBits value wrapped fits.literal fits.bounded, fun s hs =>
        ⟨fits.width s hs, fits.unsigned s hs, v, value, rfl, fun _ => wrapped⟩⟩
    rw [Frame.run_exec_assign, fold, overflows]
    simp only [seen]
    exact Symbolic.store_agrees lhs
      ⟨fits.regular, inputs.left, fits.driven, fits.nested⟩ agrees feeds
  | .branch cond yes no =>
    obtain ⟨hyes, hno⟩ := Option.or_eq_none_iff.mp plain
    simp only [keysFit, Bool.and_eq_true] at keys
    simp only [exprs, sources, List.flatMap_cons, List.flatMap_append] at inputs
    simp only [leaves, List.filterMap_append, List.forall_mem_append] at assignable
    obtain ⟨v, value, seen, _⟩ := inputs.left.eval agrees
    -- The way that is not taken is followed too: its frame is dropped, but merging needs its
    -- widths.
    obtain ⟨goes, g, taken, first⟩ :=
      foldAll_agrees yes hyes keys.1 inputs.right.left assignable.1 agrees
    obtain ⟨goes', h, other, second⟩ :=
      foldAll_agrees no hno keys.2 inputs.right.right assignable.2 agrees
    refine ⟨Bool.or_eq_false_iff.mpr ⟨goes, goes'⟩, if v = 0 then h else g, ?_,
      first.merge value second⟩
    rw [Frame.run_exec_branch]
    simp only [seen]
    split
    · exact other
    · exact taken
  | .select test arms =>
    simp only [exprs, sources, List.flatMap_cons] at inputs
    obtain ⟨v, value, seen, _⟩ := inputs.left.eval agrees
    rw [Frame.run_exec_select, fold, overflows]
    simp only [seen]
    exact foldArms_agrees arms plain keys inputs.right assignable value agrees
  | .nextState _ | .nextValue .. => cases plain

theorem foldAll_agrees (ss : List Stmt) (plain : sugarOf? ss = none) (keys : keysFitOf ss = true)
    (inputs : Symbolic.Inputs A ρ ((exprsOf ss).flatMap Expr.refs) (sourcesOf ss))
    (assignable : ∀ a ∈ (leavesOf ss).filterMap assign?, Assignable A loose a.1 a.2)
    {env : Symbolic} {f : Frame} (agrees : env.Agrees A loose ρ f) :
    overflowsAll env ss = false ∧
      ∃ g, (Frame.execAll ss).run.run f = (.ok (), g) ∧ (foldAll env ss).Agrees A loose ρ g := by
  match ss with
  | [] => exact ⟨rfl, f, Frame.run_execAll_nil f, agrees⟩
  | s :: ss =>
    obtain ⟨first, others⟩ := Option.or_eq_none_iff.mp plain
    simp only [keysFitOf, Bool.and_eq_true] at keys
    simp only [exprsOf, sourcesOf, List.flatMap_append] at inputs
    simp only [leavesOf, List.filterMap_append, List.forall_mem_append] at assignable
    obtain ⟨goes, g, run, after⟩ := fold_agrees s first keys.1 inputs.left assignable.1 agrees
    obtain ⟨goes', h, rest, final⟩ :=
      foldAll_agrees ss others keys.2 inputs.right assignable.2 after
    exact ⟨Bool.or_eq_false_iff.mpr ⟨goes, goes'⟩, h,
      Frame.run_execAll_cons_ok.mpr ⟨g, run, rest⟩, final⟩

theorem foldArms_agrees (arms : Arms) (plain : sugarOfArms? arms = none) {test : Expr}
    (keys : keysFitOfArms test.shape arms = true)
    (inputs : Symbolic.Inputs A ρ ((exprsOfArms arms).flatMap Expr.refs) (sourcesOfArms arms))
    (assignable : ∀ a ∈ (leavesOfArms arms).filterMap assign?, Assignable A loose a.1 a.2)
    {v : Int} (value : test.eval ρ = .ok v) {env : Symbolic} {f : Frame}
    (agrees : env.Agrees A loose ρ f) :
    overflowsArms env arms = false ∧
      ∃ g, (Frame.execArms test.shape v arms).run.run f = (.ok (), g) ∧
        (foldArms env test arms).Agrees A loose ρ g := by
  match arms with
  | .done => exact ⟨rfl, f, Frame.run_execArms_done _ _ f, agrees⟩
  | .otherwise body =>
    rw [Frame.execArms_otherwise, foldArms, overflowsArms]
    exact foldAll_agrees body plain keys inputs assignable agrees
  | .arm key body rest =>
    obtain ⟨here, later⟩ := Option.or_eq_none_iff.mp plain
    simp only [keysFitOfArms, Bool.and_eq_true, decide_eq_true_eq] at keys
    simp only [exprsOfArms, sourcesOfArms, List.flatMap_append] at inputs
    simp only [leavesOfArms, List.filterMap_append, List.forall_mem_append] at assignable
    obtain ⟨goes, g, taken, first⟩ :=
      foldAll_agrees body here keys.1.2 inputs.left assignable.1 agrees
    obtain ⟨goes', h, other, second⟩ :=
      foldArms_agrees rest later keys.2 inputs.right assignable.2 value agrees
    refine ⟨Bool.or_eq_false_iff.mpr ⟨goes, goes'⟩, ?_⟩
    -- A run wraps the key to the shape of the test, which is the key's own shape.
    have hit : (Expr.eq test (.literal key)).eval ρ =
        .ok (decide (v = test.shape.wrap key.value)).toNat :=
      Expr.eval_compare value (keys.1.1 ▸ rfl) rfl rfl
    have merged := first.merge hit second
    rw [Frame.execArms_arm, foldArms]
    by_cases same : test.shape.wrap key.value = v
    · simp only [same, decide_true, Bool.toNat_true, Nat.cast_one, one_ne_zero, if_false] at merged
      rw [if_pos same]
      exact ⟨g, taken, merged⟩
    · simp only [Ne.symm same, decide_false, Bool.toNat_false, Nat.cast_zero, if_true] at merged
      rw [if_neg same]
      exact ⟨h, other, merged⟩
end

/-! ### Lists that fold without loss -/

/-- Wherever the signal takes a value as it is, the value has the signal's width. -/
def TakesOwnWidth (ss : List Stmt) (s : Signal) : Prop :=
  ∀ a ∈ assigns ss, s ∈ a.1.direct → a.2.width = s.width

/-- The signal is unsigned, never cut, and takes only unsigned values. -/
def TakesUnsigned (ss : List Stmt) (s : Signal) : Prop :=
  s.shape.signed = false ∧
    ∀ a ∈ assigns ss, s ∉ a.1.nested ∧ (s ∈ a.1.direct → a.2.shape.signed = false)

instance (ss : List Stmt) (s : Signal) : Decidable (TakesOwnWidth ss s) :=
  inferInstanceAs (Decidable (∀ a ∈ assigns ss, s ∈ a.1.direct → a.2.width = s.width))

instance (ss : List Stmt) (s : Signal) : Decidable (TakesUnsigned ss s) :=
  inferInstanceAs (Decidable (s.shape.signed = false ∧
    ∀ a ∈ assigns ss, s ∉ a.1.nested ∧ (s ∈ a.1.direct → a.2.shape.signed = false)))

/-- Combinational statements whose targets are regular, whose literals have values of their shapes,
whose values can be fitted to their targets, which read nothing that they assign, and whose signals
take values that suit them. -/
structure Foldable (ss : List Stmt) : Prop where
  plain : sugarOf? ss = none
  keys : keysFitOf ss = true
  resolved : ∀ e ∈ exprsOf ss, e.refs = []
  regular : ∀ a ∈ assigns ss, a.1.isRegular = true ∧ a.1.width ≤ maxWidth
  literals : ∀ a ∈ assigns ss, ∀ c ∈ a.2.literal?, c.shape.Holds c.value
  fit : ∀ a ∈ assigns ss, a.2.unfit a.1.width = false
  unread : ∀ s ∈ sourcesOf ss, s ∉ assigned ss
  suited : ∀ s ∈ (assigned ss).toList, TakesOwnWidth ss s ∨ TakesUnsigned ss s

variable {ss : List Stmt}

theorem drives_of_mem_assigns {a : Expr × Expr} (ha : a ∈ assigns ss) :
    ∀ s ∈ a.1.drives, s ∈ assigned ss := by
  obtain ⟨u, hu, same⟩ := List.mem_filterMap.mp ha
  cases u with
  | assign lhs rhs =>
    cases same
    have target : lhs ∈ targetsOf ss := (leafAmong_leavesOf ss _ hu).targets (.head _)
    exact fun s hs => drivenBy_iff.mp ⟨lhs, target, hs⟩
  | branch | select | nextState | nextValue => cases same

theorem Foldable.assignable (h : Foldable ss) : ∀ a ∈ assigns ss,
    Assignable (· ∈ assigned ss) (¬ TakesOwnWidth ss ·) a.1 a.2 := by
  intro a ha
  have driven := drives_of_mem_assigns ha
  -- Signals that take values of other widths are the loose ones.
  have loose (s : Signal) (hs : s ∈ assigned ss) (loose : ¬ TakesOwnWidth ss s) :
      TakesUnsigned ss s := (h.suited s hs).resolve_left loose
  refine ⟨(h.regular a ha).1, (h.regular a ha).2, driven, fun s hs cut => ?_, fun s hs own => ?_,
    fun s hs cut => ?_, fun c hc => ?_, h.fit a ha⟩
  · exact ((loose s (driven s (a.1.nested_subset hs)) cut).2 a ha).1 hs
  · exact not_not.mp own a ha hs
  · exact ((loose s (driven s (a.1.direct_subset hs)) cut).2 a ha).2 hs
  · exact Shape.wrap_eq_self_iff.mpr (h.literals a ha c (by rw [hc]; rfl))

/-- At the start all signals hold their reset values on both sides. -/
theorem Foldable.agrees_fresh (h : Foldable ss) (σ : SimState) :
    Symbolic.Agrees (· ∈ assigned ss) (¬ TakesOwnWidth ss ·) σ.value ∅
      (Simulator.fresh σ (assigned ss)) := by
  refine ⟨rfl, fun s hs => Simulator.latest_fresh_of_not_mem hs, fun s hs => ?_⟩
  rw [Simulator.latest_fresh_of_mem hs]
  refine ⟨fun _ => rfl, fun loose => ((h.suited s hs).resolve_left loose).1, _, rfl,
    ?_, fun _ => ?_⟩
  · exact (s.shape.wrap_wrap _).trans (s.shape.wrap_wrap _)
  · exact s.shape.wrap_wrap _

namespace Packing

def amount : Signal := ⟨⟨0⟩, "amount", .unsigned 4, 0, false⟩

def way : Signal := ⟨⟨1⟩, "way", .unsigned 2, 0, false⟩

def word : Signal := ⟨⟨2⟩, "word", .unsigned 8, 165, false⟩

def depth : Signal := ⟨⟨3⟩, "depth", .signedOf 4, -3, false⟩

def tally : Signal := ⟨⟨4⟩, "tally", .unsigned 3, 5, false⟩

def spare : Signal := ⟨⟨5⟩, "spare", .unsigned 4, 6, false⟩

/-- A word that is filled slice by slice, a signed signal beside one of its slices, a tally that
takes sums wider than itself, and a choice between targets. -/
def body : List Stmt := [
  .assign (.slice word 2 6) amount,
  .assign (.concat [.slice word 0 2, depth]) (.unary .neg amount),
  .branch way [.assign tally (.binary .add amount amount)] [.assign tally (.int 1)],
  .select way (.arm (.sized 1 (.unsigned 2))
    [.assign (.mux way [spare, .slice word 4 8, spare]) (.unary .invert amount)]
    (.otherwise [.assign spare amount]))]

def state : SimState := .ofList [(amount, 9), (way, 1)]

theorem foldable : Foldable body where
  plain := by decide +kernel
  keys := by decide +kernel
  resolved := by decide +kernel
  regular := by decide +kernel
  literals := by decide +kernel
  fit := by decide +kernel
  unread := by decide +kernel
  suited := by decide +kernel

end Packing

namespace Packing

/-- A signed value without bits. -/
def nothing : Signal := ⟨⟨6⟩, "nothing", .signedOf 0, 0, false⟩

def emptied : List Stmt := [.assign (.slice word 0 2) nothing]

end Packing

end Stmt

end Gateware
