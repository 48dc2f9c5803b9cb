import Gateware.Proofs.Lockstep
import Gateware.Proofs.Lowering.Rounds
import Gateware.Proofs.Renumbering.Netlist

/-!
# Lowering under other numbers

Lowerings draw fresh identities. Two runs whose supplies are aligned by a numbering draw identities
that correspond, so the built-in lowerings give corresponding replacements, and rounds of lowering
give corresponding netlists.

## Main result

`tracks_lowerNetlist`: lowering a renumbered netlist fails for the same reason or gives the
renumbered result, and leaves aligned supplies.

## Proof strategy

Steps that draw identities go in lockstep on aligned supplies: `Draws` for those that cannot fail,
`Tracks` for those that can. Rounds also carry the replacements made so far, which correspond under
new keys.
-/
namespace Gateware

open Lockstep (OrFail)

variable {r : Numbering} {α β γ δ : Type}

/-- The numbers that are drawn next, and all after them, correspond. -/
structure Aligned (r : Numbering) (s t : Supply) : Prop where
  signal : ∀ m, r.signal (s.nextSignal + m) = t.nextSignal + m
  cell : ∀ m, r.cell (s.nextCell + m) = t.nextCell + m

/-- Steps that draw identities, with results that correspond by `g`. -/
abbrev Draws (r : Numbering) (g : α → β) (x : StateM Supply α) (y : StateM Supply β) : Prop :=
  Lockstep (Aligned r) g x y

/-- Steps that draw identities and fail alike, or have results that correspond by `g`. -/
abbrev Tracks (r : Numbering) (g : α → β) (x : Build α) (y : Build β) : Prop :=
  OrFail (Aligned r) g x y

/-! ### Fresh identities -/

namespace Draws

/-- Fresh signals correspond. -/
theorem signal (name : String) (shape : Shape) :
    Draws r (Signal.renumber r) (Signal.fresh name shape) (Signal.fresh name shape) := by
  intro s t aligned
  refine ⟨?_, ?_, aligned.cell⟩
  · have next := aligned.signal 0
    simp only [Nat.add_zero] at next
    change (⟨⟨t.nextSignal⟩, name, shape, 0, false⟩ : Signal) = _
    rw [← next]
    rfl
  · intro m
    change r.signal (s.nextSignal + 1 + m) = t.nextSignal + 1 + m
    rw [Nat.add_assoc, aligned.signal, Nat.add_assoc]

/-- Fresh cells correspond. -/
theorem cell (kind : Cell.Kind) :
    Draws r (Cell.renumber r) (Cell.fresh kind) (Cell.fresh (kind.renumber r)) := by
  intro s t aligned
  refine ⟨?_, aligned.signal, ?_⟩
  · have next := aligned.cell 0
    simp only [Nat.add_zero] at next
    change (⟨⟨t.nextCell⟩, kind.renumber r⟩ : Cell) = _
    rw [← next]
    rfl
  · intro m
    change r.cell (s.nextCell + 1 + m) = t.nextCell + 1 + m
    rw [Nat.add_assoc, aligned.cell, Nat.add_assoc]

/-- Fresh domains correspond. -/
theorem domain (name : String) :
    Draws r (ClockDomain.renumber r) (ClockDomain.fresh name) (ClockDomain.fresh name) :=
  (signal _ _).bind fun _ => (signal _ _).bind fun _ => .pure _

end Draws

/-! ### Built-in lowerings -/

namespace Lowering

/-- A lowering that gives corresponding replacements for corresponding cells. -/
def Tracked (r : Numbering) (l : Lowering) : Prop :=
  ∀ c, Tracks r (Netlist.renumber r) (l.lower c) (l.lower (c.renumber r))

theorem tracks_single [r.Increasing] (of : String) (items : List Instance.Item) :
    Tracks r (Netlist.renumber r) (single of items)
      (single of (items.map (Instance.Item.renumber r))) := by
  refine (OrFail.lift (Draws.cell (.inst { of, items }))).bind fun c => ?_
  have added := Netlist.addCell_renumber (r := r) {} c
  rw [Netlist.renumber_empty] at added
  rw [added]
  exact .pure _

theorem tracked_diffInput [r.Increasing] : Tracked r diffInput := by
  rintro ⟨id, kind⟩
  cases kind with
  | diffInput d => exact tracks_single _ _
  | _ => exact .throw _

theorem tracked_diffOutput [r.Increasing] : Tracked r diffOutput := by
  rintro ⟨id, kind⟩
  cases kind with
  | diffOutput d => exact tracks_single _ _
  | _ => exact .throw _

theorem tracked_tristate [r.Increasing] : Tracked r tristate := by
  rintro ⟨id, kind⟩
  cases kind with
  | tristate t =>
    obtain ⟨target, o, oe, i⟩ := t
    cases i with
    | none => exact tracks_single _ _
    | some i => exact tracks_single _ _
  | _ => exact .throw _

theorem draws_chain (m : MultiReg) :
    Draws r (List.map (Signal.renumber r)) (chain m)
      (chain { m with input := m.input.renumber r, output := m.output.renumber r }) := by
  simp only [chain, Expr.shape_renumber]
  refine Lockstep.mapM (List.map_id _).symm fun i _ => ?_
  exact (Draws.signal _ _).bind fun s => .pure _

theorem shift_renumber (source : Expr) (regs : List Signal) :
    shift (source.renumber r) (regs.map (Signal.renumber r)) =
      Stmt.renumberOf r (shift source regs) := by
  induction regs generalizing source with
  | nil => rfl
  | cons s regs ih =>
    rw [List.map_cons, shift, shift]
    exact congrArg _ (ih (.signal s))

theorem tracked_multiReg : Tracked r multiReg := by
  rintro ⟨id, kind⟩
  cases kind with
  | multiReg m =>
    refine .ite (.throw _) ?_
    refine (OrFail.lift (draws_chain m)).bind fun regs => ?_
    -- the output shows the last register, or the input where there is none
    have last : ((regs.map (Signal.renumber r)).getLast?.map Expr.signal).getD
          (m.input.renumber r) =
        ((regs.getLast?.map Expr.signal).getD m.input).renumber r := by
      rw [List.getLast?_map]
      cases regs.getLast? <;> rfl
    have built := Netlist.addSync_renumber (r := r) {} m.odomain (shift m.input regs)
    rw [Netlist.renumber_empty, ← shift_renumber] at built
    simp only [last, built]
    rw [show [Stmt.assign (m.output.renumber r) _] = Stmt.renumberOf r
        [.assign m.output ((regs.getLast?.map Expr.signal).getD m.input)] from rfl,
      Netlist.addComb_renumber]
    exact OrFail.pure _
  | _ => exact .throw _

theorem tracked_resetSync : Tracked r resetSync := by
  rintro ⟨id, kind⟩
  cases kind with
  | resetSync m =>
    refine (OrFail.lift (Draws.domain _)).bind fun derived => ?_
    obtain ⟨name, clk, rst, asyncReset⟩ := derived
    refine OrFail.bind (g := Signal.renumber r) (.map (.lift (Draws.signal _ _)) ?_) fun first => ?_
    · exact fun _ => rfl
    refine OrFail.bind (g := Expr.renumber r) (.map (.lift (Draws.signal _ _)) ?_) fun second => ?_
    · exact fun _ => rfl
    cases rst with
    | none => exact OrFail.pure _
    | some rst => exact OrFail.pure _
  | _ => exact .throw _

/-- Every built-in lowering keeps to corresponding replacements. -/
theorem tracked_of_builtin [r.Increasing] {l : Lowering} (built : l ∈ builtin) : Tracked r l := by
  simp only [builtin, List.mem_cons, List.not_mem_nil, or_false] at built
  obtain rfl | rfl | rfl | rfl | rfl := built
  · exact tracked_multiReg
  · exact tracked_resetSync
  · exact tracked_diffInput
  · exact tracked_diffOutput
  · exact tracked_tristate

/-! ### What a replacement keeps -/

@[simp] theorem resetTargets_renumber (n : Netlist) :
    resetTargets (n.renumber r) = resetTargets n := by
  rw [resetTargets, resetTargets, Netlist.stmts_renumber, Stmt.targetsOf_mapExprsOf,
    List.filterMap_map]
  congr 1
  funext e
  cases e <;> rfl

theorem keeps_renumber [r.Increasing] (n : Netlist) (p : Cell.Port) :
    keeps (n.renumber r) (p.renumber r) = keeps n p := by
  have driven : (p.value.renumber r).targets.subset (n.renumber r).driven =
      p.value.targets.subset n.driven := by
    rw [Expr.targets, Expr.targets, Expr.drives_renumber, Netlist.driven_renumber,
      Bool.eq_iff_iff, OrdSet.subset_iff, OrdSet.subset_iff]
    simp only [OrdSet.mem_ofList, List.forall_mem_map, OrdSet.mem_image Signal.keeps_renumber]
  obtain ⟨name, value, direction⟩ := p
  cases value with
  | ref d => cases d with
    | reset domain allowResetless => simp only [keeps, Cell.Port.renumber, Expr.renumber,
        resetTargets_renumber]
    | clock domain => exact driven
  | _ => exact driven

theorem lostPort?_renumber [r.Increasing] (c : Cell) (n : Netlist) :
    lostPort? (c.renumber r) (n.renumber r) = (lostPort? c n).map (Cell.Port.renumber r) := by
  simp only [lostPort?, Cell.outputs_renumber, List.find?_map, Function.comp_def, keeps_renumber]

/-! ### Rounds -/

/-- The replacements made so far, under other numbers. -/
def Memo.renumber (r : Numbering) (memo : Memo) : Memo :=
  memo.rekey (CellId.renumber r) (Netlist.renumber r)

/-- Steps that carry replacements, with results and replacements that correspond. -/
def Follows (r : Numbering) (g : α → β) (x : Run α) (y : Run β) : Prop :=
  ∀ memo, Tracks r (Prod.map g (Memo.renumber r)) (x.run memo) (y.run (Memo.renumber r memo))

namespace Follows

theorem pure {g : α → β} (a : α) : Follows r g (pure a) (pure (g a)) :=
  fun memo => OrFail.pure (a, memo)

theorem throw {g : α → β} (f : Fault) : Follows r g (throw f) (throw f) :=
  fun _ => OrFail.throw f

theorem bind {g : α → β} {h : γ → δ} {x : Run α} {y : Run β} {k : α → Run γ} {l : β → Run δ}
    (first : Follows r g x y) (rest : ∀ a, Follows r h (k a) (l (g a))) :
    Follows r h (x >>= k) (y >>= l) := by
  intro memo
  rw [StateT.run_bind, StateT.run_bind]
  exact (first memo).bind fun a => rest a.1 a.2

theorem get_bind {h : γ → δ} {k : Memo → Run γ} {l : Memo → Run δ}
    (rest : ∀ memo, Follows r h (k memo) (l (Memo.renumber r memo))) :
    Follows r h (get >>= k) (get >>= l) :=
  fun memo => rest memo memo

theorem lift {g : α → β} {x : Build α} {y : Build β} (same : Tracks r g x y) :
    Follows r g (liftM x) (liftM y) :=
  fun memo => same.bind fun a => OrFail.pure (a, memo)

theorem except {g : α → β} {x : Except Fault α} {y : Except Fault β} (same : y = x.map g) :
    Follows r g (liftM x) (liftM y) :=
  lift (OrFail.except same)

end Follows

variable {table : Table}

theorem follows_lowerCell [r.Increasing] (tracked : ∀ l ∈ table.values, Tracked r l) (c : Cell) :
    Follows r (Netlist.renumber r) (lowerCell table c) (lowerCell table (c.renumber r)) := by
  rw [lowerCell, lowerCell]
  apply Follows.get_bind
  intro memo
  have known : (Memo.renumber r memo).get? (c.renumber r).id =
      (memo.get? c.id).map (Netlist.renumber r) := OrdMap.get?_rekey CellId.keeps_renumber memo c.id
  rw [known, Cell.tag_renumber]
  cases memo.get? c.id with
  | some n => exact .pure n
  | none =>
    -- the table goes by tags, so both sides use the same lowering or have none
    cases found : table.get? c.tag with
    | none =>
      rw [Cell.describe_renumber]
      exact .throw _
    | some l =>
      have tracks := tracked l (List.mem_map.mpr ⟨_, OrdMap.get?_eq_some_iff.mp found, rfl⟩) c
      apply Follows.bind (Follows.lift tracks)
      intro n
      rw [lostPort?_renumber, Cell.describe_renumber]
      cases lostPort? c n with
      | some p => exact .throw _
      | none =>
        intro memo
        have inserted : (Memo.renumber r memo).insert (c.renumber r).id (n.renumber r) =
            Memo.renumber r (memo.insert c.id n) :=
          OrdMap.insert_rekey CellId.keeps_renumber memo c.id n
        have same : Tracks r (Prod.map (Netlist.renumber r) (Memo.renumber r))
            (pure (n, memo.insert c.id n)) (pure _) := OrFail.pure (n, memo.insert c.id n)
        rw [Prod.map, ← inserted] at same
        exact same

theorem pending_renumber [r.Increasing] (n : Netlist) :
    pending table (n.renumber r) = (pending table n).map (List.map (Cell.renumber r)) := by
  simp only [pending, Netlist.values_cells_renumber, List.find?_map, List.filter_map,
    Function.comp_def, Cell.tag_renumber]
  cases n.cells.values.find? fun c => !table.contains c.tag && !c.tag.native with
  | none => rfl
  | some c => exact congrArg _ (congrArg _ (Cell.describe_renumber c))

theorem kept_renumber [r.Increasing] (n : Netlist) :
    kept table (n.renumber r) = (kept table n).renumber r := by
  simp only [kept, Netlist.renumber]
  congr 1
  apply OrdMap.filter_rekey CellId.keeps_renumber
  intro c
  rw [Cell.tag_renumber]

theorem follows_replace [r.Increasing] (tracked : ∀ l ∈ table.values, Tracked r l)
    (cells : List Cell) (n : Netlist) :
    Follows r (Netlist.renumber r)
      (cells.foldlM (fun n c => do return n ++ (← lowerCell table c)) n)
      ((cells.map (Cell.renumber r)).foldlM (fun n c => do return n ++ (← lowerCell table c))
        (n.renumber r)) := by
  induction cells generalizing n with
  | nil => exact .pure n
  | cons c cells ih =>
    rw [List.map_cons, List.foldlM_cons, List.foldlM_cons]
    apply Follows.bind (g := Netlist.renumber r)
    · apply (follows_lowerCell tracked c).bind
      intro made
      rw [Netlist.append_renumber]
      exact .pure _
    · exact ih

theorem follows_lowerRounds [r.Increasing] (tracked : ∀ l ∈ table.values, Tracked r l)
    (limit rounds : Nat) (n : Netlist) :
    Follows r (Netlist.renumber r) (lowerRounds table limit rounds n)
      (lowerRounds table limit rounds (n.renumber r)) := by
  induction rounds generalizing n with
  | zero => exact .throw _
  | succ rounds ih =>
    rw [lowerRounds, lowerRounds]
    apply Follows.bind (Follows.except (pending_renumber n))
    intro cells
    cases cells with
    | nil => exact .pure n
    | cons c cells =>
      -- what stays is renumbered before cells are added, so the fold starts from `kept` of `n`
      apply Follows.bind (g := Netlist.renumber r)
      · have replaced := follows_replace tracked (c :: cells) (kept table n)
        rw [← kept_renumber] at replaced
        exact replaced
      · exact ih

theorem tracks_lowerNetlist [r.Increasing] (tracked : ∀ l ∈ table.values, Tracked r l) (limit : Nat)
    (n : Netlist) :
    Tracks r (Prod.map (Netlist.renumber r) (Memo.renumber r))
      ((lowerNetlist table limit n).run ∅) ((lowerNetlist table limit (n.renumber r)).run ∅) :=
  follows_lowerRounds tracked limit limit n ∅

end Lowering

end Gateware
