import Gateware.Netlist.Decorator
import Gateware.Proofs.Footprint
import Gateware.Proofs.Performed

/-!
# Gated and resettable registers

A clock enable puts the clocked statements of a domain under a condition; a reset puts assignments
of reset values behind them. Decorators of both kinds can follow each other, each one changing what
the ones before it made.

## Main results

`gates_outcome`: what decorated statements write is what the statements themselves write, changed by
one decorator after the other. An enable that is not set leaves nothing, a reset that is set gives
every signal that the undecorated statements assign its reset value, reset-less ones aside.

## Proof strategy

One equation says what a decorator does to the outcome of any list (`outcome_gated`,
`outcome_clearable`). Decorating a list does not change which signals it assigns
(`Gate.assigned_wrap`), so every reset in a sequence reaches the same signals.
-/
namespace Gateware

/-- Whether a condition is set, if it has a value. -/
def Expr.isSet (ρ : Valuation) (e : Expr) : Option Bool := (e.eval ρ).toOption.map (· ≠ 0)

theorem OrdMap.get?_modify {κ α : Type} [Ord κ] [Std.TransOrd κ] [Std.LawfulEqOrd κ]
    [DecidableEq κ] (m : OrdMap κ α) (k j : κ) (f : α → α) :
    (m.modify k f).get? j = if j = k then (m.get? k).map f else m.get? j := by
  unfold modify
  split
  next v found => rw [get?_insert, found, Option.map_some]
  next absent =>
    rw [absent, Option.map_none]
    split
    next same => rw [same, absent]
    next => rfl

namespace Decorator

/-- The reset values of the signals among `assigned` that have one. -/
def resets (assigned : OrdSet Signal) : SimState :=
  .ofKeys (.ofList (assigned.toList.filter (!·.resetLess))) Signal.resetValue

/-- A clock enable or a reset for some domain. -/
inductive Gate
  | enable (condition : Expr)
  | reset (condition : Expr)

namespace Gate

def condition : Gate → Expr
  | enable c => c
  | reset c => c

/-- The decorator for a domain. -/
def on (domain : String) : Gate → Decorator
  | enable c => .clockEnable domain c
  | reset c => .reset domain c

/-- What the decorator makes of clocked statements. -/
def wrap : Gate → List Stmt → List Stmt
  | enable c => gated c
  | reset c => clearable c

/-- What becomes of writes: nothing is written without the clock, and a reset overrides. -/
def imposed (ρ : Valuation) (assigned : OrdSet Signal) (w : SimState) : Gate → SimState
  | enable c => if c.isSet ρ = some false then ∅ else w
  | reset c => if c.isSet ρ = some true then w.override (resets assigned) else w

end Gate

end Decorator

namespace Frame

open Decorator

variable (σ : SimState) (c : Expr) (ss : List Stmt)

/-! ### One decorator -/

theorem outcome_gated : outcome true σ (gated c ss) =
    (c.isSet σ.value).bind fun set => if set then outcome true σ ss else some ∅ := by
  unfold outcome gated Expr.isSet
  rw [run_execAll_singleton, run_exec_branch, seen_clocked rfl]
  cases c.eval σ.value with
  | error e => rfl
  | ok v =>
    by_cases zero : v = 0
    · simp [zero, Except.toOption, run_execAll_nil]
    · simp [zero, Except.toOption]

/-- Assignments of reset values store them one after the other. -/
theorem run_execAll_resets (xs : List Signal) (f : Frame) :
    (execAll (xs.map fun (s : Signal) => .assign s (.int s.reset))).run.run f =
      (.ok (), { f with writes := xs.foldl (fun w s => w.insert s s.resetValue) f.writes }) := by
  induction xs generalizing f with
  | nil => exact run_execAll_nil f
  | cons s xs ih =>
    have first : (exec (.assign s (.int s.reset))).run.run f = (.ok (), f.stored s s.reset) := by
      rw [run_exec_assign, Expr.eval_int]
      exact run_write_signal s s.reset f
    rw [List.map_cons, run_execAll_cons, first]
    exact ih _

theorem foldl_insert_resetValue (xs : List Signal) (w : SimState) :
    xs.foldl (fun w s => w.insert s s.resetValue) w =
      w.override (.ofKeys (.ofList xs) Signal.resetValue) := by
  apply OrdMap.ext_get?
  intro s
  rw [OrdMap.get?_override, OrdMap.get?_ofKeys]
  by_cases cleared : s ∈ xs
  · rw [if_pos (OrdSet.mem_ofList.mpr cleared), Option.some_or]
    refine OrdMap.get?_foldl_insert_of_eq ?_ (.inl ⟨s, cleared, rfl⟩)
    rintro x - rfl
    rfl
  · rw [if_neg fun h => cleared (OrdSet.mem_ofList.mp h), Option.none_or]
    refine OrdMap.get?_foldl_insert_of_ne ?_ w
    rintro x hx rfl
    exact cleared hx

theorem run_execAll_clears (f : Frame) : (execAll (clears ss)).run.run f =
    (.ok (), { f with writes := f.writes.override (resets (Stmt.assigned ss)) }) := by
  rw [clears, run_execAll_resets, foldl_insert_resetValue]
  rfl

/-- Where nothing resets, the condition is not looked at. -/
theorem outcome_clearable : outcome true σ (clearable c ss) =
    (outcome true σ ss).bind fun w =>
      if clears ss = [] then some w
      else (c.isSet σ.value).map fun set =>
        if set then w.override (resets (Stmt.assigned ss)) else w := by
  unfold clearable
  by_cases none : clears ss = []
  · simp [none]
  · rw [if_neg (by simpa using none)]
    unfold outcome Expr.isSet
    have stores := execAll_stores ss { state := σ, clocked := true }
    rw [run_execAll_append]
    generalize (execAll ss).run.run { state := σ, clocked := true } = ended at stores ⊢
    obtain ⟨e | u, f⟩ := ended
    · rfl
    -- The branch sees the state and none of the writes before it.
    · have seen : f.seen = σ.value := by rw [seen_clocked stores.clocked_eq, stores.state_eq]
      simp only [Option.bind_some, if_neg none]
      rw [run_execAll_singleton, run_exec_branch, seen]
      cases c.eval σ.value with
      | error e => rfl
      | ok v =>
        by_cases zero : v = 0
        · simp [zero, Except.toOption, run_execAll_nil]
        · simp [zero, Except.toOption, run_execAll_clears]

end Frame

/-! ### One decorator after the other -/

namespace Decorator

theorem assigned_gated (c : Expr) (ss : List Stmt) :
    Stmt.assigned (gated c ss) = Stmt.assigned ss := by
  simp [gated, Stmt.assigned, Stmt.targetsOf, Stmt.targets]

theorem mem_assigned_clears {ss : List Stmt} {s : Signal}
    (h : s ∈ Stmt.assigned (clears ss)) : s ∈ Stmt.assigned ss := by
  obtain ⟨clear, member, driven⟩ := Stmt.mem_assigned.mp h
  obtain ⟨x, hx, rfl⟩ := List.mem_map.mp member
  have same : s = x := by
    simpa [Stmt.assigned, Stmt.targetsOf, Stmt.targets, Expr.drives] using driven
  rw [same]
  exact List.mem_of_mem_filter hx

theorem assigned_clearable (c : Expr) (ss : List Stmt) :
    Stmt.assigned (clearable c ss) = Stmt.assigned ss := by
  unfold clearable
  split
  next => rfl
  next =>
    apply OrdSet.ext_mem
    intro s
    have clearing : Stmt.assigned [.branch c (clears ss) []] = Stmt.assigned (clears ss) :=
      assigned_gated c (clears ss)
    rw [Stmt.mem_assigned_append, clearing]
    exact or_iff_left_of_imp mem_assigned_clears

namespace Gate

theorem assigned_wrap (g : Gate) (ss : List Stmt) :
    Stmt.assigned (g.wrap ss) = Stmt.assigned ss := by
  cases g with
  | enable c => exact assigned_gated c ss
  | reset c => exact assigned_clearable c ss

theorem apply_on (n : Netlist) (domain : String) (g : Gate) :
    apply n (g.on domain) = { n with sync := n.sync.modify domain g.wrap } := by
  cases g <;> rfl

/-- Without signals that reset, overriding by reset values changes nothing. -/
theorem override_resets {ss : List Stmt} (none : clears ss = []) (w : SimState) :
    w.override (resets (Stmt.assigned ss)) = w := by
  have bare := List.map_eq_nil_iff.mp none
  rw [resets, bare]
  rfl

section Outcome

variable {σ : SimState} {ss : List Stmt} {w : SimState}

/-- Decorated statements write what the decorator makes of the writes, if they come to an end. -/
theorem eq_imposed (only : ∀ v, Frame.outcome true σ ss = some v → v = w) (g : Gate) {v : SimState}
    (run : Frame.outcome true σ (g.wrap ss) = some v) :
    v = g.imposed σ.value (Stmt.assigned ss) w := by
  cases g with
  | enable c =>
    rw [wrap, Frame.outcome_gated] at run
    obtain ⟨set, valued, run⟩ := Option.bind_eq_some_iff.mp run
    rw [imposed, valued]
    cases set with
    | false => exact (Option.some.inj run).symm
    | true => exact only v run
  | reset c =>
    rw [wrap, Frame.outcome_clearable] at run
    obtain ⟨u, first, run⟩ := Option.bind_eq_some_iff.mp run
    cases only u first
    -- The decorator leaves a list without resets as it is, whatever its condition.
    by_cases none : clears ss = []
    · rw [if_pos none] at run
      rw [imposed, override_resets none, ite_self]
      exact (Option.some.inj run).symm
    · rw [if_neg none] at run
      obtain ⟨set, valued, rfl⟩ := Option.map_eq_some_iff.mp run
      rw [imposed, valued]
      cases set <;> rfl

/-- A decorator with a condition that has a value does not stop statements. -/
theorem outcome_wrap (run : Frame.outcome true σ ss = some w) (g : Gate)
    (valued : (g.condition.isSet σ.value).isSome) :
    Frame.outcome true σ (g.wrap ss) = some (g.imposed σ.value (Stmt.assigned ss) w) := by
  have ends : (Frame.outcome true σ (g.wrap ss)).isSome := by
    obtain ⟨set, valued⟩ := Option.isSome_iff_exists.mp valued
    cases g with
    | enable c =>
      rw [condition] at valued
      rw [wrap, Frame.outcome_gated, valued, run]
      cases set <;> rfl
    | reset c =>
      rw [condition] at valued
      rw [wrap, Frame.outcome_clearable, valued, run]
      by_cases none : clears ss = [] <;> simp [none]
  obtain ⟨v, decorated⟩ := Option.isSome_iff_exists.mp ends
  have only : ∀ v, Frame.outcome true σ ss = some v → v = w := fun v h =>
    Option.some.inj (h.symm.trans run)
  rw [decorated, eq_imposed only g decorated]

end Outcome

/-- Statements behind one decorator after the other. -/
def wrapAll (gs : List Gate) (ss : List Stmt) : List Stmt := gs.foldl (fun ss g => g.wrap ss) ss

/-- Writes as one decorator after the other leaves them. -/
def imposedAll (gs : List Gate) (ρ : Valuation) (assigned : OrdSet Signal) (w : SimState) :
    SimState :=
  gs.foldl (fun w g => g.imposed ρ assigned w) w

theorem foldl_apply {n : Netlist} {domain : String} {ss : List Stmt}
    (listed : n.sync.get? domain = some ss) (gs : List Gate) :
    (gs.map (·.on domain)).foldl apply n =
      { n with sync := n.sync.insert domain (wrapAll gs ss) } := by
  induction gs generalizing n ss with
  | nil =>
    have same : n.sync = n.sync.insert domain ss := by
      apply OrdMap.ext_get?
      intro d
      rw [OrdMap.get?_insert]
      split
      next here => rw [here, listed]
      next => rfl
    exact congrArg (fun sync => { n with sync }) same
  | cons g gs ih =>
    have next : (apply n (g.on domain)).sync.get? domain = some (g.wrap ss) := by
      rw [apply_on, OrdMap.get?_modify, if_pos rfl, listed, Option.map_some]
    rw [List.map_cons, List.foldl_cons, ih next, apply_on]
    -- The last change to the domain's list is the one that stays.
    have same : (n.sync.modify domain g.wrap).insert domain (wrapAll gs (g.wrap ss)) =
        n.sync.insert domain (wrapAll gs (g.wrap ss)) := by
      apply OrdMap.ext_get?
      intro d
      rw [OrdMap.get?_insert, OrdMap.get?_insert, OrdMap.get?_modify]
      split <;> simp [*]
    exact congrArg (fun sync => { n with sync }) same

section Sequence

variable {σ : SimState}

/-- A list behind a stopped clock comes to an end even if it would not do so itself, so what is
carried along is what each list writes at most, not that it ends. -/
theorem eq_imposedAll (gs : List Gate) {ss : List Stmt} {w : SimState}
    (only : ∀ v, Frame.outcome true σ ss = some v → v = w) {v : SimState}
    (run : Frame.outcome true σ (wrapAll gs ss) = some v) :
    v = imposedAll gs σ.value (Stmt.assigned ss) w := by
  induction gs generalizing ss w with
  | nil => exact only v run
  | cons g gs ih =>
    have rest := ih (fun u => eq_imposed only g) run
    -- The later decorators see the signals of a wrapped list, which are those of `ss`.
    rw [assigned_wrap] at rest
    exact rest

theorem outcome_wrapAll (gs : List Gate) {ss : List Stmt} {w : SimState}
    (run : Frame.outcome true σ ss = some w)
    (valued : ∀ g ∈ gs, (g.condition.isSet σ.value).isSome) :
    Frame.outcome true σ (wrapAll gs ss) =
      some (imposedAll gs σ.value (Stmt.assigned ss) w) := by
  induction gs generalizing ss w with
  | nil => exact run
  | cons g gs ih =>
    have rest := ih (outcome_wrap run g (valued g (.head _))) fun k hk => valued k (.tail _ hk)
    rw [assigned_wrap] at rest
    exact rest

end Sequence

end Gate

/-- Enables and resets for a domain change its statements and nothing else. Where the statements
come to an end, the decorated ones write what one decorator after the other makes of their writes:
an enable of 0 leaves nothing, a reset that is not 0 sets all that the statements assign to its
reset value, reset-less signals aside. They come to an end if every condition has a value. -/
theorem gates_outcome {n : Netlist} {domain : String} {ss : List Stmt}
    (listed : n.sync.get? domain = some ss) (gs : List Gate) :
    ∃ ss', (gs.map (·.on domain)).foldl apply n = { n with sync := n.sync.insert domain ss' } ∧
      ∀ σ w, Frame.outcome true σ ss = some w →
        (∀ v, Frame.outcome true σ ss' = some v →
          v = Gate.imposedAll gs σ.value (Stmt.assigned ss) w) ∧
        ((∀ g ∈ gs, (g.condition.isSet σ.value).isSome) →
          Frame.outcome true σ ss' = some (Gate.imposedAll gs σ.value (Stmt.assigned ss) w)) := by
  refine ⟨Gate.wrapAll gs ss, Gate.foldl_apply listed gs, ?_⟩
  intro σ w run
  have only : ∀ v, Frame.outcome true σ ss = some v → v = w := fun v h =>
    Option.some.inj (h.symm.trans run)
  exact ⟨fun v => Gate.eq_imposedAll gs only, Gate.outcome_wrapAll gs run⟩

namespace Sample

/-- A register of two bits. -/
def register (i : Nat) (name : String) (reset : Int) (resetLess : Bool) : Signal :=
  ⟨⟨i⟩, name, .unsigned 2, reset, resetLess⟩

/-- Two registers with a reset value that does not fit, one of them in a body that is not entered,
and one that never resets. -/
def registers : List Stmt :=
  [.assign (register 0 "a" 5 false) (.int 2), .assign (register 1 "b" 0 true) (.int 3),
    .branch (.int 0) [.assign (register 2 "c" 7 false) (.int 0)] []]

/-- The clock is stopped, then a reset overrides, then the clock runs. -/
def stoppedThenReset : List Gate := [.enable (.int 0), .reset (.int 1), .enable (.int 1)]

end Sample

open Sample

/-- A reset behind an enable reaches what the enable stopped, also where nothing was written. -/
theorem registers_stoppedThenReset :
    ∃ n : Netlist, n.sync.get? "sync" = some registers ∧
      (Frame.outcome true ∅ registers).map (·.entries.map fun e => (e.1.name, e.2)) =
        some [("a", 2), ("b", 3)] ∧
      ∃ ss', ((stoppedThenReset.map (·.on "sync")).foldl apply n).sync.get? "sync" = some ss' ∧
        (Frame.outcome true ∅ ss').map (·.entries.map fun e => (e.1.name, e.2)) =
          some [("a", 1), ("c", 3)] := by
  let n : Netlist := { sync := (∅ : OrdMap String (List Stmt)).insert "sync" registers }
  have listed : n.sync.get? "sync" = some registers := OrdMap.get?_insert_self ..
  have valued : ∀ g ∈ stoppedThenReset,
      (g.condition.isSet (∅ : SimState).value).isSome := by decide +kernel
  have ends : (Frame.outcome true ∅ registers).isSome := by decide +kernel
  obtain ⟨ss', decorated, means⟩ := gates_outcome listed stoppedThenReset
  obtain ⟨w, run⟩ := Option.isSome_iff_exists.mp ends
  refine ⟨n, listed, by decide +kernel, ss', ?_, ?_⟩
  · rw [decorated]
    exact OrdMap.get?_insert_self ..
  · rw [(means ∅ w run).2 valued, ← Option.map_some, ← run]
    decide +kernel

end Decorator

end Gateware
