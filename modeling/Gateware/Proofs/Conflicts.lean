import Gateware.Proofs.SingleDriver

/-!
# What the driver check accepts and reports

The check walks over statements and ports with lists of targets and sets of signals, and keeps the
drivers it has seen under their descriptions. Here it is compared with relations that say on their
own what can be driven, what a statement assigns and what a part drives.

## Main results

`checkDrivers_exact`: the check accepts exactly the netlists whose targets can be driven and in
which no two parts drive one signal. What it reports is true: a target that cannot be driven, or a
signal with two drivers, the one that is entered first in front. Only two cells can have the same
description.
-/
namespace Gateware

/-! ### Targets -/

namespace Expr

/-- The expressions that can be driven. -/
inductive Drivable : Expr → Prop
  | signal (s : Signal) : Drivable (.signal s)
  | reset (domain : String) (optional : Bool) : Drivable (.ref (.reset domain optional))
  | slice {a : Expr} (start stop : Nat) : Drivable a → Drivable (.slice a start stop)
  | concat {ps : List Expr} : ps ≠ [] → (∀ p ∈ ps, Drivable p) → Drivable (.concat ps)
  | mux (selector : Expr) {cs : List Expr} :
    cs ≠ [] → (∀ c ∈ cs, Drivable c) → Drivable (.mux selector cs)

/-- An assignment to the expression drives `s`. The selector of a choice is only read. -/
inductive Drives (s : Signal) : Expr → Prop
  | signal : Drives s (.signal s)
  | slice {a : Expr} (start stop : Nat) : Drives s a → Drives s (.slice a start stop)
  | concat {p : Expr} {ps : List Expr} : p ∈ ps → Drives s p → Drives s (.concat ps)
  | mux (selector : Expr) {c : Expr} {cs : List Expr} :
    c ∈ cs → Drives s c → Drives s (.mux selector cs)

theorem isTarget_iff (t : Expr) : t.isTarget = true ↔ t.Drivable := by
  induction t with
  | signal s => exact ⟨fun _ => .signal s, fun _ => rfl⟩
  | slice a start stop ih =>
    rw [isTarget, ih]
    refine ⟨.slice start stop, fun h => ?_⟩
    cases h
    assumption
  | concat ps ih =>
    simp only [isTarget, areTargets_eq, Bool.and_eq_true, Bool.not_eq_true',
      List.isEmpty_eq_false_iff, List.all_map, List.all_eq_true, Function.comp_def, id,
      forall₂_congr ih]
    refine ⟨fun h => .concat h.1 h.2, fun h => ?_⟩
    cases h with
    | concat some all => exact ⟨some, all⟩
  | mux selector cs _ ih =>
    simp only [isTarget, areTargets_eq, Bool.and_eq_true, Bool.not_eq_true',
      List.isEmpty_eq_false_iff, List.all_map, List.all_eq_true, Function.comp_def, id,
      forall₂_congr ih]
    refine ⟨fun h => .mux selector h.1 h.2, fun h => ?_⟩
    cases h with
    | mux _ some all => exact ⟨some, all⟩
  | ref r =>
    cases r with
    | reset domain optional => exact ⟨fun _ => .reset domain optional, fun _ => rfl⟩
    | clock => refine ⟨fun h => ?_, fun h => ?_⟩ <;> cases h
  | literal | unary | binary | replicate => refine ⟨fun h => ?_, fun h => ?_⟩ <;> cases h

theorem mem_drives_iff (s : Signal) (t : Expr) : s ∈ t.drives ↔ Drives s t := by
  induction t with
  | signal x =>
    rw [drives, List.mem_singleton]
    refine ⟨fun h => h ▸ .signal, fun h => ?_⟩
    cases h
    rfl
  | slice a start stop ih =>
    rw [drives, ih]
    refine ⟨.slice start stop, fun h => ?_⟩
    cases h
    assumption
  | concat ps ih =>
    rw [drives, drivesOf_eq, List.mem_flatMap]
    constructor
    · rintro ⟨p, listed, inside⟩
      exact .concat listed ((ih p listed).mp inside)
    · rintro (_ | _ | ⟨listed, inside⟩)
      exact ⟨_, listed, (ih _ listed).mpr inside⟩
  | mux selector cs _ ih =>
    rw [drives, drivesOf_eq, List.mem_flatMap]
    constructor
    · rintro ⟨c, listed, inside⟩
      exact .mux selector listed ((ih c listed).mp inside)
    · rintro (_ | _ | _ | ⟨_, listed, inside⟩)
      exact ⟨_, listed, (ih _ listed).mpr inside⟩
  | literal | ref | unary | binary | replicate => refine ⟨fun h => ?_, fun h => ?_⟩ <;> cases h

end Expr

/-! ### Assignments -/

/-- A body of the arms, for a key or for all other values. -/
def Arms.HasBody (arms : Arms) (body : List Stmt) : Prop :=
  (∃ key, (key, body) ∈ arms.cases) ∨ arms.default? = some body

namespace Stmt

/-- Somewhere in the statement, under any number of conditions, `t` is assigned or loaded. -/
inductive Assigns (t : Expr) : Stmt → Prop
  | assign (rhs : Expr) : Assigns t (.assign t rhs)
  | load (value : Expr) : Assigns t (.nextValue t value)
  | yes {s : Stmt} {yes : List Stmt} (cond : Expr) (no : List Stmt) :
    s ∈ yes → Assigns t s → Assigns t (.branch cond yes no)
  | no {s : Stmt} {no : List Stmt} (cond : Expr) (yes : List Stmt) :
    s ∈ no → Assigns t s → Assigns t (.branch cond yes no)
  | arm {s : Stmt} {body : List Stmt} {arms : Arms} (test : Expr) :
    arms.HasBody body → s ∈ body → Assigns t s → Assigns t (.select test arms)

mutual
theorem mem_targets_iff (t : Expr) (s : Stmt) : t ∈ s.targets ↔ s.Assigns t := by
  match s with
  | .assign lhs rhs =>
    rw [targets, List.mem_singleton]
    refine ⟨fun h => h ▸ .assign rhs, fun h => ?_⟩
    cases h
    rfl
  | .nextValue target value =>
    rw [targets, List.mem_singleton]
    refine ⟨fun h => h ▸ .load value, fun h => ?_⟩
    cases h
    rfl
  | .branch cond yes no =>
    rw [targets, List.mem_append, mem_targetsOf_iff t yes, mem_targetsOf_iff t no]
    constructor
    · rintro (⟨s, listed, inside⟩ | ⟨s, listed, inside⟩)
      · exact .yes cond no listed inside
      · exact .no cond yes listed inside
    · intro h
      cases h with
      | yes _ _ listed inside => exact .inl ⟨_, listed, inside⟩
      | no _ _ listed inside => exact .inr ⟨_, listed, inside⟩
  | .select test arms =>
    rw [targets, mem_targetsOfArms_iff t arms]
    constructor
    · rintro ⟨body, has, s, listed, inside⟩
      exact .arm test has listed inside
    · intro h
      cases h with
      | arm _ has listed inside => exact ⟨_, has, _, listed, inside⟩
  | .nextState _ => refine ⟨fun h => ?_, fun h => ?_⟩ <;> cases h

theorem mem_targetsOf_iff (t : Expr) (ss : List Stmt) :
    t ∈ targetsOf ss ↔ ∃ s ∈ ss, s.Assigns t := by
  match ss with
  | [] => simp [targetsOf]
  | s :: ss => simp [targetsOf, mem_targets_iff t s, mem_targetsOf_iff t ss]

theorem mem_targetsOfArms_iff (t : Expr) (arms : Arms) :
    t ∈ targetsOfArms arms ↔ ∃ body, arms.HasBody body ∧ ∃ s ∈ body, s.Assigns t := by
  match arms with
  | .done => simp [targetsOfArms, Arms.HasBody, Arms.cases, Arms.default?]
  | .otherwise body =>
    simp [targetsOfArms, Arms.HasBody, Arms.cases, Arms.default?, mem_targetsOf_iff t body]
  | .arm key body rest =>
    have has (b : List Stmt) : (Arms.arm key body rest).HasBody b ↔ b = body ∨ rest.HasBody b := by
      simp [Arms.HasBody, Arms.cases, Arms.default?, exists_or, or_assoc]
    simp only [targetsOfArms, List.mem_append, mem_targetsOf_iff t body,
      mem_targetsOfArms_iff t rest, has, or_and_right, exists_or, exists_eq_left]
end

end Stmt

/-! ### Parts -/

namespace Driver

/-- Descriptions start with different words, and what follows the word tells the rest. -/
theorem text_injective {a b : Driver} (h : a.text = b.text) : a = b := by
  have same := congrArg String.toList h
  cases a <;> cases b <;> simp [text, toString, String.toList_append] at same ⊢
  · exact String.toList_inj.mp same
  · exact String.toList_inj.mp same

end Driver

namespace Netlist

/-- A part assigns `t`. -/
def Part.Assigns (n : Netlist) (t : Expr) : Part → Prop
  | comb => ∃ s ∈ n.comb, s.Assigns t
  | sync domain => ∃ ss, n.sync.get? domain = some ss ∧ ∃ s ∈ ss, s.Assigns t
  | cell _ => False

/-- A part drives `s`: with an assignment, or through a port of a cell that is not an input. -/
def Part.Drives (n : Netlist) (s : Signal) : Part → Prop
  | cell id => ∃ c, n.cells.get? id = some c ∧
    ∃ port ∈ c.ports, port.direction ≠ .input ∧ port.value.Drives s
  | part => ∃ t, part.Assigns n t ∧ t.Drives s

variable {n : Netlist}

theorem mem_targetsOf_stmts {p : Part} {t : Expr} :
    t ∈ Stmt.targetsOf (p.stmts n) ↔ p.Assigns n t := by
  rw [Stmt.mem_targetsOf_iff]
  cases p with
  | comb => rfl
  | sync domain =>
    simp only [Part.stmts, Part.Assigns, OrdMap.getD]
    cases n.sync.get? domain <;> simp
  | cell id => simp [Part.stmts, Part.Assigns]

theorem mem_drives_part {p : Part} {s : Signal} : s ∈ p.drives n ↔ p.Drives n s := by
  have byStmts : s ∈ Stmt.assigned (p.stmts n) ↔ ∃ t, p.Assigns n t ∧ t.Drives s := by
    simp only [Stmt.assigned, OrdSet.mem_ofList, List.mem_flatMap, mem_targetsOf_stmts,
      Expr.mem_drives_iff]
  cases p with
  | comb | sync domain => exact byStmts
  | cell id =>
    simp only [Part.drives, Part.Drives]
    cases n.cells.get? id with
    | none => simp
    | some c => simp [cellTargets, Cell.outputs, Expr.mem_drives_iff, and_assoc]

/-! ### Reports -/

/-- Entering signals fails at one that has another driver or a driver that does not share. -/
theorem claims_error {who : Driver} {xs : List Signal} {owners : OrdMap Signal Driver}
    {fault : Fault} (distinct : xs.Nodup) (h : xs.foldlM (claim who) owners = .error fault) :
    ∃ s ∈ xs, ∃ first, owners.get? s = some first ∧
      fault = .driverConflict s.name first.text who.text := by
  induction xs generalizing owners with
  | nil => cases h
  | cons x xs ih =>
    obtain ⟨new, distinct⟩ := List.nodup_cons.mp distinct
    rw [List.foldlM_cons] at h
    cases first : claim who owners x with
    | error f =>
      rw [first] at h
      cases h
      unfold claim at first
      split at first
      next => cases first
      next other found =>
        split at first
        next => cases first
        next =>
          cases first
          exact ⟨x, List.mem_cons_self, other, found, rfl⟩
    | ok next =>
      rw [first] at h
      obtain ⟨s, hs, other, found, rfl⟩ := ih distinct h
      -- The head is not among the rest, so the driver found there was entered before.
      have differ : s ≠ x := by
        rintro rfl
        exact new hs
      rw [(claim_ok first).2, if_neg differ] at found
      exact ⟨s, List.mem_cons_of_mem _ hs, other, found, rfl⟩

/-- What a run over parts reports, after the parts `before` have been entered. -/
theorem enter_error {before ps : List Part} {owners : OrdMap Signal Driver} {fault : Fault}
    (owned : ∀ s d, owners.get? s = some d → ∃ p ∈ before, s ∈ p.drives n ∧ p.driver n = d)
    (h : ps.foldlM (enter n) owners = .error fault) :
    (∃ p ∈ ps, p.fault? n = some fault) ∨
      ∃ (p q : Part) (s : Signal), [p, q].Sublist (before ++ ps) ∧ s ∈ p.drives n ∧
        s ∈ q.drives n ∧ fault = .driverConflict s.name (p.driver n).text (q.driver n).text := by
  induction ps generalizing before owners with
  | nil => cases h
  | cons q ps ih =>
    rw [List.foldlM_cons] at h
    cases bad : q.fault? n with
    | some f =>
      rw [enter, bad, Option.elim_some] at h
      cases h
      exact .inl ⟨q, List.mem_cons_self, bad⟩
    | none =>
      rw [enter, bad, Option.elim_none] at h
      cases entered : (q.drives n).toList.foldlM (claim (q.driver n)) owners with
      | error f =>
        rw [entered] at h
        cases h
        obtain ⟨s, mine, first, found, rfl⟩ :=
          claims_error (Ordered.Increasing.nodup (q.drives n).increasing) entered
        obtain ⟨p, earlier, his, rfl⟩ := owned s first found
        refine .inr ⟨p, q, s, ?_, his, mine, rfl⟩
        exact (List.singleton_sublist.mpr earlier).append
          (List.singleton_sublist.mpr List.mem_cons_self)
      | ok next =>
        rw [entered] at h
        -- From here on the part counts among those before.
        have known : ∀ s d, next.get? s = some d →
            ∃ p ∈ before ++ [q], s ∈ p.drives n ∧ p.driver n = d := by
          intro s d found
          rw [(claims_ok entered).2] at found
          split at found
          next mine => exact ⟨q, by simp, mine, Option.some.inj found⟩
          next =>
            obtain ⟨p, earlier, his⟩ := owned s d found
            exact ⟨p, List.mem_append_left _ earlier, his⟩
        rcases ih known h with ⟨p, hp, bad⟩ | conflict
        · exact .inl ⟨p, List.mem_cons_of_mem _ hp, bad⟩
        · rw [List.append_assoc] at conflict
          exact .inr conflict

/-- The driver check accepts exactly the netlists whose targets can be driven and in which no signal
has two drivers. Otherwise it reports a target that cannot be driven, or a signal with the two
parts that drive it in the order they are checked; their descriptions agree for cells only. -/
theorem checkDrivers_exact (n : Netlist) :
    (n.checkDrivers = .ok () ↔
      (∀ (p : Part) (t : Expr), p.Assigns n t → t.Drivable) ∧
      ∀ (s : Signal) (p q : Part), p.Drives n s → q.Drives n s → p = q) ∧
    ∀ fault, n.checkDrivers = .error fault →
      (∃ (p : Part) (t : Expr), p.Assigns n t ∧ ¬ t.Drivable ∧
        fault = .invalidAssignTarget t.text) ∨
      ∃ (p q : Part) (s : Signal), [p, q].Sublist n.parts ∧ p ≠ q ∧ p.Drives n s ∧ q.Drives n s ∧
        fault = .driverConflict s.name (p.driver n).text (q.driver n).text ∧
        ((p.driver n).text = (q.driver n).text → ∃ i j, p = .cell i ∧ q = .cell j) := by
  constructor
  · rw [checkDrivers_ok_iff]
    simp only [OneDriver, mem_drives_part, mem_targetsOf_stmts, Expr.isTarget_iff]
  · intro fault h
    have failed : n.parts.foldlM (enter n) ∅ = .error fault := by
      rw [checkDrivers, drivers_eq] at h
      cases entered : n.parts.foldlM (enter n) ∅ with
      | ok after =>
        rw [entered] at h
        cases h
      | error f =>
        rw [entered] at h
        cases h
        rfl
    have nobody : ∀ s d, (∅ : OrdMap Signal Driver).get? s = some d →
        ∃ p ∈ ([] : List Part), s ∈ p.drives n ∧ p.driver n = d := by
      intro s d found
      simp at found
    rcases enter_error nobody failed with ⟨p, -, bad⟩ | ⟨p, q, s, ordered, mine, his, rfl⟩
    · left
      obtain ⟨t, found, rfl⟩ := Option.map_eq_some_iff.mp bad
      have unfit : t.isTarget = false := by simpa using List.find?_some found
      refine ⟨p, t, mem_targetsOf_stmts.mp (List.mem_of_find?_eq_some found), ?_, rfl⟩
      rw [← Expr.isTarget_iff, unfit]
      exact Bool.false_ne_true
    · right
      rw [List.nil_append] at ordered
      have differ : p ≠ q := by simpa using n.nodup_parts.sublist ordered
      have distinct := List.pairwise_pair.mp (n.parts_distinct.sublist ordered)
      refine ⟨p, q, s, ordered, differ, mem_drives_part.mp mine, mem_drives_part.mp his, rfl, ?_⟩
      intro same
      have one := Driver.text_injective same
      have alone := distinct one
      -- Of the drivers only cells do not share, and the other one is the same driver.
      cases q with
      | comb | sync => cases alone
      | cell j =>
        cases p with
        | comb | sync => cases one
        | cell i => exact ⟨i, j, rfl, rfl⟩

open Signal (wire) in
/-- Two differential inputs with one output. -/
def sharedOutput : Netlist where
  cells := .ofList [
    (⟨0⟩, ⟨⟨0⟩, .diffInput ⟨wire 0 "p" 1, wire 1 "n" 1, wire 2 "q" 1⟩⟩),
    (⟨1⟩, ⟨⟨1⟩, .diffInput ⟨wire 3 "p" 1, wire 4 "n" 1, wire 2 "q" 1⟩⟩)]

-- The cells have one description and are two drivers all the same.
example : sharedOutput.checkDrivers = .error (.driverConflict "q"
    "special DifferentialInput q" "special DifferentialInput q") := by
  decide +kernel

end Netlist

end Gateware
