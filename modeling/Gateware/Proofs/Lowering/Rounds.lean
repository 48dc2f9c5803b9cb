import Gateware.Lowering.Target
import Gateware.Proofs.Drivers

/-!
# Lowering in rounds

Lowering replaces cells round after round until only those are left that can be written out. The
replacements are checked one at a time, against the cell they stand for; what this adds up to over
all rounds is stated here.

## Main result

`lowerNetlist_keeps`: whatever the table does, a lowered netlist holds only cells that can be
written out, and it holds all statements, all cells without a lowering and all drivers of the
netlist that it was made from.

## Proof strategy

A successful run is described by two relations without supply and faults: `Replaced` follows the
cells of one round, `Lowered` the rounds. Statements only grow behind each other. A driver can get
lost in two places: where a cell is taken out, and where a replacement brings a cell under an
identity that is taken. The first is what `lostPort?` looks at, the second cannot happen when an
identity always stands for the same cell.
-/
namespace Gateware

/-! ### Larger netlists -/

namespace Netlist

/-- A netlist holds what another one holds: longer lists of statements, and all of its cells. -/
structure Extends (n g : Netlist) : Prop where
  comb : n.comb <+: g.comb
  sync : ∀ d ss, n.sync.get? d = some ss → ∃ more, g.sync.get? d = some (ss ++ more)
  cells : ∀ i c, n.cells.get? i = some c → g.cells.get? i = some c

namespace Extends

variable {n m g : Netlist}

theorem refl (n : Netlist) : n.Extends n where
  comb := List.prefix_rfl
  sync _ ss h := ⟨[], by rw [h, List.append_nil]⟩
  cells _ _ h := h

theorem trans (first : n.Extends m) (second : m.Extends g) : n.Extends g where
  comb := first.comb.trans second.comb
  sync d ss h := by
    obtain ⟨more, h⟩ := first.sync d ss h
    obtain ⟨rest, h⟩ := second.sync d _ h
    exact ⟨more ++ rest, by rw [h, List.append_assoc]⟩
  cells i c h := second.cells i c (first.cells i c h)

theorem append (n r : Netlist) : n.Extends (n ++ r) where
  comb := List.prefix_append _ _
  sync d ss h := by
    change ∃ more, (n.sync.unionWith (· ++ ·) r.sync).get? d = some (ss ++ more)
    rw [OrdMap.get?_unionWith, h]
    cases r.sync.get? d with
    | none => exact ⟨[], by simp⟩
    | some more => exact ⟨more, rfl⟩
  cells i c h := by
    change (n.cells.unionWith (fun kept _ => kept) r.cells).get? i = some c
    rw [OrdMap.get?_unionWith, h]
    cases r.cells.get? i <;> rfl

end Extends

theorem mem_driven {n : Netlist} {s : Signal} :
    s ∈ n.driven ↔ (∃ u ∈ n.stmts, ∃ t ∈ u.targets, s ∈ t.drives) ∨
      ∃ i c, n.cells.get? i = some c ∧ s ∈ cellTargets c := by
  simp only [driven, OrdSet.mem_ofList, List.mem_append, List.mem_flatMap, Stmt.targetsOf_eq,
    OrdMap.values, List.mem_map, OrdMap.get?_eq_some_iff, OrdSet.mem_toList]
  refine or_congr ?_ ?_
  · constructor
    · rintro ⟨t, ⟨u, hu, ht⟩, hs⟩
      exact ⟨u, hu, t, ht, hs⟩
    · rintro ⟨u, hu, t, ht, hs⟩
      exact ⟨t, ⟨u, hu, ht⟩, hs⟩
  · constructor
    · rintro ⟨c, ⟨⟨i, d⟩, entry, rfl⟩, hs⟩
      exact ⟨i, d, entry, hs⟩
    · rintro ⟨i, c, entry, hs⟩
      exact ⟨c, ⟨(i, c), entry, rfl⟩, hs⟩

theorem Extends.stmts {n g : Netlist} (h : n.Extends g) {u : Stmt} (hu : u ∈ n.stmts) :
    u ∈ g.stmts := by
  rcases mem_stmts.mp hu with comb | ⟨d, ss, found, member⟩
  · exact mem_stmts.mpr (.inl (h.comb.subset comb))
  · obtain ⟨more, found⟩ := h.sync d ss found
    exact mem_stmts.mpr (.inr ⟨d, _, found, List.mem_append_left _ member⟩)

/-- A larger netlist drives more. -/
theorem Extends.driven {n g : Netlist} (h : n.Extends g) {s : Signal} (hs : s ∈ n.driven) :
    s ∈ g.driven := by
  rcases mem_driven.mp hs with ⟨u, hu, driven⟩ | ⟨i, c, found, hc⟩
  · exact mem_driven.mpr (.inl ⟨u, h.stmts hu, driven⟩)
  · exact mem_driven.mpr (.inr ⟨i, c, h.cells i c found, hc⟩)

theorem mem_stmts_append {n r : Netlist} {u : Stmt} :
    u ∈ (n ++ r).stmts ↔ u ∈ n.stmts ∨ u ∈ r.stmts := by
  have sync : ∀ d, (n ++ r).sync.get? d = (n.sync.unionWith (· ++ ·) r.sync).get? d := fun _ => rfl
  have comb : u ∈ (n ++ r).comb ↔ u ∈ n.comb ∨ u ∈ r.comb := List.mem_append
  have lists : (∃ d ss, (n ++ r).sync.get? d = some ss ∧ u ∈ ss) ↔
      (∃ d ss, n.sync.get? d = some ss ∧ u ∈ ss) ∨ ∃ d ss, r.sync.get? d = some ss ∧ u ∈ ss := by
    simp only [sync, OrdMap.get?_unionWith]
    rw [← exists_or]
    refine exists_congr fun d => ?_
    cases n.sync.get? d <;> cases r.sync.get? d <;> simp
  rw [mem_stmts, mem_stmts, mem_stmts, comb, lists]
  exact or_or_or_comm

/-- Every cell is filed under its identity, and is the one that the identity stands for. -/
def Catalogued (catalogue : CellId → Cell) (n : Netlist) : Prop :=
  ∀ e ∈ n.cells.entries, e.2.id = e.1 ∧ catalogue e.1 = e.2

instance (catalogue : CellId → Cell) (n : Netlist) : Decidable (n.Catalogued catalogue) :=
  inferInstanceAs (Decidable (∀ e ∈ n.cells.entries, e.2.id = e.1 ∧ catalogue e.1 = e.2))

namespace Catalogued

variable {catalogue : CellId → Cell} {n r : Netlist}

theorem of_get? (h : n.Catalogued catalogue) {i : CellId} {c : Cell}
    (found : n.cells.get? i = some c) : c.id = i ∧ catalogue i = c :=
  h (i, c) (OrdMap.get?_eq_some_iff.mp found)

theorem append (hn : n.Catalogued catalogue) (hr : r.Catalogued catalogue) :
    (n ++ r).Catalogued catalogue := by
  rintro ⟨i, c⟩ entry
  have found : (n.cells.unionWith (fun kept _ => kept) r.cells).get? i = some c :=
    OrdMap.get?_eq_some_iff.mpr entry
  rw [OrdMap.get?_unionWith] at found
  cases old : n.cells.get? i with
  | some d =>
    have same : d = c := by
      cases new : r.cells.get? i <;> simpa [old, new] using found
    exact hn.of_get? (same ▸ old)
  | none =>
    cases new : r.cells.get? i with
    | none => simp [old, new] at found
    | some d =>
      have same : d = c := by simpa [old, new] using found
      exact hr.of_get? (same ▸ new)

/-- No driver of what comes second gets lost: a cell that is not taken over is there already. -/
theorem driven_append (hn : n.Catalogued catalogue) (hr : r.Catalogued catalogue) {s : Signal}
    (hs : s ∈ r.driven) : s ∈ (n ++ r).driven := by
  rcases mem_driven.mp hs with ⟨u, hu, driven⟩ | ⟨i, c, found, hc⟩
  · exact mem_driven.mpr (.inl ⟨u, mem_stmts_append.mpr (.inr hu), driven⟩)
  · refine mem_driven.mpr (.inr ⟨i, c, ?_, hc⟩)
    change (n.cells.unionWith (fun kept _ => kept) r.cells).get? i = some c
    rw [OrdMap.get?_unionWith, found]
    cases old : n.cells.get? i with
    | none => rfl
    | some d =>
      have same : d = c := ((hn.of_get? old).2.symm.trans (hr.of_get? found).2)
      simp [same]

end Catalogued

end Netlist

namespace Lowering

open Netlist

/-! ### Runs as relations -/

/-- The replacements made so far. -/
abbrev Memo := OrdMap CellId Netlist

/-- What is left of a netlist without the cells to replace. -/
def kept (table : Table) (n : Netlist) : Netlist :=
  { n with cells := n.cells.filter fun c => !table.contains c.tag }

/-- Cells are replaced one after the other: by what is remembered of them, or by what their lowering
makes if it drives all of their outputs. -/
inductive Replaced (table : Table) : List Cell → Netlist → Memo → Netlist → Memo → Prop
  | nil {n memo} : Replaced table [] n memo n memo
  | known {c cs n g r memo memo'} : memo.get? c.id = some r →
      Replaced table cs (n ++ r) memo g memo' → Replaced table (c :: cs) n memo g memo'
  | made {c cs n g r memo memo' lowering s s'} : memo.get? c.id = none →
      table.get? c.tag = some lowering → (lowering.lower c).run.run s = (.ok r, s') →
      lostPort? c r = none → Replaced table cs (n ++ r) (memo.insert c.id r) g memo' →
      Replaced table (c :: cs) n memo g memo'

/-- Rounds go on until there is nothing to replace. -/
inductive Lowered (table : Table) : Netlist → Memo → Netlist → Memo → Prop
  | done {n memo} : pending table n = .ok [] → Lowered table n memo n memo
  | round {cells n mid g memo memo' memo''} : pending table n = .ok cells →
      Replaced table cells (kept table n) memo mid memo' → Lowered table mid memo' g memo'' →
      Lowered table n memo g memo''

section Runs

variable {α β : Type} {memo memo' : Memo} {s s' : Supply}

theorem run_bind_ok {x : Run α} {k : α → Run β} {b : β}
    (h : ((x >>= k).run memo).run.run s = (.ok (b, memo'), s')) :
    ∃ a mid t, (x.run memo).run.run s = (.ok (a, mid), t) ∧
      ((k a).run mid).run.run t = (.ok (b, memo'), s') := by
  rw [StateT.run_bind] at h
  obtain ⟨⟨a, mid⟩, t, first, rest⟩ := run_bind_eq_ok h
  exact ⟨a, mid, t, first, rest⟩

theorem run_get_bind {k : Memo → Run β} :
    (((get : Run Memo) >>= k).run memo).run.run s = ((k memo).run memo).run.run s := rfl

theorem run_lift_ok {x : Build α} {a : α}
    (h : ((liftM x : Run α).run memo).run.run s = (.ok (a, memo'), s')) :
    x.run.run s = (.ok a, s') ∧ memo = memo' := by
  rw [show (liftM x : Run α).run memo = (x >>= fun a => pure (a, memo)) from rfl] at h
  obtain ⟨b, t, ended, same⟩ := run_bind_eq_ok h
  cases same
  exact ⟨ended, rfl⟩

/-- What a lowered cell comes from. -/
theorem lowerCell_ok {table : Table} {c : Cell} {r : Netlist}
    (h : ((lowerCell table c).run memo).run.run s = (.ok (r, memo'), s')) :
    (memo.get? c.id = some r ∧ memo' = memo) ∨
      memo.get? c.id = none ∧ ∃ lowering, table.get? c.tag = some lowering ∧
        (lowering.lower c).run.run s = (.ok r, s') ∧ lostPort? c r = none ∧
        memo' = memo.insert c.id r := by
  rw [lowerCell, run_get_bind] at h
  cases known : memo.get? c.id with
  | some n =>
    rw [known] at h
    cases h
    exact .inl ⟨rfl, rfl⟩
  | none =>
    rw [known] at h
    refine .inr ⟨rfl, ?_⟩
    cases found : table.get? c.tag with
    | none =>
      rw [found] at h
      cases h
    | some lowering =>
      rw [found] at h
      obtain ⟨n, mid, t, lowered, h⟩ := run_bind_ok h
      obtain ⟨ended, rfl⟩ := run_lift_ok lowered
      cases lost : lostPort? c n with
      | some p =>
        rw [lost] at h
        cases h
      | none =>
        rw [lost] at h
        cases h
        exact ⟨lowering, rfl, ended, lost, rfl⟩

theorem replaced_of_run {table : Table} {cells : List Cell} {n g : Netlist}
    (h : ((cells.foldlM (fun n c => do return n ++ (← lowerCell table c)) n).run memo).run.run s
      = (.ok (g, memo'), s')) :
    Replaced table cells n memo g memo' := by
  induction cells generalizing n memo s with
  | nil =>
    cases h
    exact .nil
  | cons c cs ih =>
    rw [List.foldlM_cons] at h
    obtain ⟨mid, memo₁, s₁, one, rest⟩ := run_bind_ok h
    obtain ⟨r, memo₂, s₂, lowered, added⟩ := run_bind_ok one
    cases added
    rcases lowerCell_ok lowered with ⟨known, rfl⟩ | ⟨unknown, lowering, found, made, all, rfl⟩
    · exact .known known (ih rest)
    · exact .made unknown found made all (ih rest)

/-- A run of rounds that ends well is one of the relation's. -/
theorem lowered_of_run {table : Table} {limit rounds : Nat} {n g : Netlist}
    (h : ((lowerRounds table limit rounds n).run memo).run.run s = (.ok (g, memo'), s')) :
    Lowered table n memo g memo' := by
  induction rounds generalizing n memo s with
  | zero => cases h
  | succ rounds ih =>
    rw [lowerRounds] at h
    obtain ⟨cells, _, _, asked, h⟩ := run_bind_ok h
    obtain ⟨checked, rfl⟩ := run_lift_ok asked
    cases cells with
    | nil =>
      cases h
      exact .done (congrArg Prod.fst checked)
    | cons c cs =>
      obtain ⟨mid, memo₁, s₁, replaced, h⟩ := run_bind_ok h
      exact .round (congrArg Prod.fst checked) (replaced_of_run replaced) (ih h)

end Runs

/-! ### Tables and what is pending -/

theorem builtin_generic : ∀ l ∈ Table.generic.values, l ∈ builtin := by
  have listed : Table.generic.values = [multiReg, resetSync] := rfl
  simp [listed, builtin]

theorem pending_ok {table : Table} {n : Netlist} {cells : List Cell}
    (h : pending table n = .ok cells) :
    cells = n.cells.values.filter (fun c => table.contains c.tag) ∧
      ∀ c ∈ n.cells.values, table.contains c.tag = false → c.tag.native = true := by
  unfold pending at h
  split at h
  next => cases h
  next nothing =>
    cases h
    refine ⟨rfl, fun c hc other => ?_⟩
    have fine := List.find?_eq_none.mp nothing c hc
    simpa [other] using fine

/-- Where nothing is pending, all cells can be written out. -/
theorem native_of_pending {table : Table} {n : Netlist} (h : pending table n = .ok []) {c : Cell}
    (hc : c ∈ n.cells.values) : c.tag.native = true ∧ table.contains c.tag = false := by
  obtain ⟨none, native⟩ := pending_ok h
  have other : table.contains c.tag = false := by
    simpa using List.filter_eq_nil_iff.mp none.symm c hc
  exact ⟨native c hc other, other⟩

/-! ### What a replacement keeps -/

/-- A replacement that passes the check drives what its cell drove. -/
theorem driven_of_kept {c : Cell} {r : Netlist} (h : lostPort? c r = none) {s : Signal}
    (hs : s ∈ cellTargets c) : s ∈ r.driven := by
  obtain ⟨p, hp, drives⟩ := List.mem_flatMap.mp (OrdSet.mem_ofList.mp hs)
  have keeps : keeps r p = true := by
    simpa using List.find?_eq_none.mp h p hp
  unfold Lowering.keeps at keeps
  split at keeps
  next value => simp [value, Expr.drives] at drives
  next => exact OrdSet.subset_iff.mp keeps s (OrdSet.mem_ofList.mpr drives)

/-- Every remembered replacement drives what the cell drove that its identity stands for. -/
def Checked (catalogue : CellId → Cell) (memo : Memo) : Prop :=
  ∀ e ∈ memo.entries, lostPort? (catalogue e.1) e.2 = none

instance (catalogue : CellId → Cell) (memo : Memo) : Decidable (Checked catalogue memo) :=
  inferInstanceAs (Decidable (∀ e ∈ memo.entries, lostPort? (catalogue e.1) e.2 = none))

theorem Checked.insert {catalogue : CellId → Cell} {memo : Memo} (h : Checked catalogue memo)
    {c : Cell} {r : Netlist} (hc : catalogue c.id = c) (all : lostPort? c r = none) :
    Checked catalogue (memo.insert c.id r) := by
  rintro ⟨i, q⟩ entry
  have found : (memo.insert c.id r).get? i = some q := OrdMap.get?_eq_some_iff.mpr entry
  rw [OrdMap.get?_insert] at found
  split at found
  next same =>
    cases found
    rw [same, hc]
    exact all
  next => exact h (i, q) (OrdMap.get?_eq_some_iff.mp found)

/-- Nothing remembered is forgotten or changed. -/
theorem Replaced.remembers {table : Table} {cells : List Cell} {n g : Netlist} {memo memo' : Memo}
    (h : Replaced table cells n memo g memo') {i : CellId} {r : Netlist}
    (found : memo.get? i = some r) : memo'.get? i = some r := by
  induction h with
  | nil => exact found
  | known _ _ ih => exact ih found
  | @made c _ _ _ _ _ _ _ _ _ unknown _ _ _ _ ih =>
    apply ih
    rw [OrdMap.get?_insert, if_neg]
    · exact found
    · rintro rfl
      rw [unknown] at found
      cases found

theorem Lowered.remembers {table : Table} {n g : Netlist} {memo memo' : Memo}
    (h : Lowered table n memo g memo') {i : CellId} {r : Netlist}
    (found : memo.get? i = some r) : memo'.get? i = some r := by
  induction h with
  | done => exact found
  | round _ replaced _ ih => exact ih (replaced.remembers found)

section Keeping

variable {table : Table} {catalogue : CellId → Cell} {memo memo' : Memo} {n g : Netlist}
  {cells : List Cell}

/-- A round only adds to what it starts from. -/
theorem Replaced.extends (h : Replaced table cells n memo g memo') : n.Extends g := by
  induction h with
  | nil => exact .refl _
  | known _ _ ih => exact (Extends.append _ _).trans ih
  | made _ _ _ _ _ ih => exact (Extends.append _ _).trans ih

theorem Replaced.catalogued (h : Replaced table cells n memo g memo')
    (input : n.Catalogued catalogue)
    (made : ∀ i r, memo'.get? i = some r → r.Catalogued catalogue) : g.Catalogued catalogue := by
  induction h with
  | nil => exact input
  | known found rest ih => exact ih (input.append (made _ _ (rest.remembers found))) made
  | made _ _ _ _ rest ih =>
    exact ih (input.append (made _ _ (rest.remembers (OrdMap.get?_insert_self _ _ _)))) made

theorem Replaced.checked (h : Replaced table cells n memo g memo')
    (denote : ∀ c ∈ cells, catalogue c.id = c) (known : Checked catalogue memo) :
    Checked catalogue memo' := by
  induction h with
  | nil => exact known
  | known _ _ ih => exact ih (fun c hc => denote c (List.mem_cons_of_mem _ hc)) known
  | made _ _ _ all _ ih =>
    exact ih (fun c hc => denote c (List.mem_cons_of_mem _ hc))
      (known.insert (denote _ List.mem_cons_self) all)

/-- A round drives what its cells drove. -/
theorem Replaced.driven (h : Replaced table cells n memo g memo')
    (denote : ∀ c ∈ cells, catalogue c.id = c) (known : Checked catalogue memo)
    (input : n.Catalogued catalogue)
    (made : ∀ i r, memo'.get? i = some r → r.Catalogued catalogue) {c : Cell} (hc : c ∈ cells)
    {s : Signal} (hs : s ∈ cellTargets c) : s ∈ g.driven := by
  induction h with
  | nil => cases hc
  | @known d _ _ _ r _ _ found rest ih =>
    have filed : r.Catalogued catalogue := made _ _ (rest.remembers found)
    rcases List.mem_cons.mp hc with rfl | hc
    -- the remembered replacement was checked for the cell of this identity, which is this one
    · have all : lostPort? c r = none := by
        have all := known (c.id, r) (OrdMap.get?_eq_some_iff.mp found)
        rwa [denote c List.mem_cons_self] at all
      exact rest.extends.driven (input.driven_append filed (driven_of_kept all hs))
    · exact ih (fun c hc => denote c (List.mem_cons_of_mem _ hc)) known (input.append filed) made hc
  | @made d _ _ _ r _ _ _ _ _ unknown found lowered all rest ih =>
    have filed : r.Catalogued catalogue :=
      made _ _ (rest.remembers (OrdMap.get?_insert_self _ _ _))
    rcases List.mem_cons.mp hc with rfl | hc
    · exact rest.extends.driven (input.driven_append filed (driven_of_kept all hs))
    · exact ih (fun c hc => denote c (List.mem_cons_of_mem _ hc))
        (known.insert (denote _ List.mem_cons_self) all) (input.append filed) made hc

/-! ### What all rounds keep -/

/-- What lowering keeps of a netlist: its statements, the cells that stay, and all drivers. -/
structure Keeps (table : Table) (n g : Netlist) : Prop where
  comb : n.comb <+: g.comb
  sync : ∀ d ss, n.sync.get? d = some ss → ∃ more, g.sync.get? d = some (ss ++ more)
  cells : ∀ i c, n.cells.get? i = some c → table.contains c.tag = false →
    g.cells.get? i = some c
  driven : ∀ s ∈ n.driven, s ∈ g.driven

theorem get?_kept {i : CellId} {c : Cell} :
    (kept table n).cells.get? i = some c ↔
      n.cells.get? i = some c ∧ table.contains c.tag = false := by
  simp [kept, OrdMap.get?_filter_eq_some_iff]

/-- What one round and the rounds after it keep, they keep together. -/
theorem Keeps.of_round {mid : Netlist} (first : (kept table n).Extends mid)
    (replaced : ∀ i c, n.cells.get? i = some c → table.contains c.tag = true →
      ∀ s ∈ cellTargets c, s ∈ mid.driven)
    (rest : Keeps table mid g) : Keeps table n g where
  comb := first.comb.trans rest.comb
  sync d ss found := by
    obtain ⟨more, found⟩ := first.sync d ss found
    obtain ⟨last, found⟩ := rest.sync d _ found
    exact ⟨more ++ last, by rw [found, List.append_assoc]⟩
  cells i c found other := rest.cells i c (first.cells i c (get?_kept.mpr ⟨found, other⟩)) other
  driven s hs := by
    apply rest.driven
    -- only for the cells that are taken out does the round itself have to say something
    rcases mem_driven.mp hs with stmts | ⟨i, c, found, target⟩
    · exact first.driven (mem_driven.mpr (.inl stmts))
    · cases overridden : table.contains c.tag with
      | true => exact replaced i c found overridden s target
      | false =>
        exact first.driven (mem_driven.mpr (.inr ⟨i, c, get?_kept.mpr ⟨found, overridden⟩, target⟩))

theorem catalogued_kept (h : n.Catalogued catalogue) : (kept table n).Catalogued catalogue := by
  rintro e he
  exact h e (List.mem_filter.mp he).1

theorem Lowered.keeps (h : Lowered table n memo g memo') (known : Checked catalogue memo)
    (input : n.Catalogued catalogue)
    (made : ∀ i r, memo'.get? i = some r → r.Catalogued catalogue) : Keeps table n g := by
  induction h with
  | done =>
    exact ⟨List.prefix_rfl, fun d ss found => ⟨[], by rw [found, List.append_nil]⟩,
      fun i c found _ => found, fun s hs => hs⟩
  | @round cells n mid g memo memo₁ memo₂ pending replaced rest ih =>
    have made₁ : ∀ i r, memo₁.get? i = some r → r.Catalogued catalogue :=
      fun i r found => made i r (rest.remembers found)
    -- a pending cell is one of the netlist, so it is filed under its own identity
    have denote : ∀ c ∈ cells, catalogue c.id = c := by
      intro c hc
      rw [(pending_ok pending).1] at hc
      obtain ⟨⟨i, d⟩, entry, rfl⟩ := List.mem_map.mp (List.mem_filter.mp hc).1
      obtain ⟨same, denotes⟩ := input (i, d) entry
      rw [same, denotes]
    apply Keeps.of_round replaced.extends
    · intro i c found overridden s hs
      have listed : c ∈ cells := by
        rw [(pending_ok pending).1]
        exact List.mem_filter.mpr
          ⟨List.mem_map.mpr ⟨(i, c), OrdMap.get?_eq_some_iff.mp found, rfl⟩, overridden⟩
      exact replaced.driven denote known (catalogued_kept input) made₁ listed hs
    · exact ih (replaced.checked denote known) (replaced.catalogued (catalogued_kept input) made₁)
        made

theorem Lowered.pending_eq (h : Lowered table n memo g memo') : pending table g = .ok [] := by
  induction h with
  | done nothing => exact nothing
  | round _ _ _ ih => exact ih

/-- A lowered netlist has only cells that can be written out and have no lowering, and it holds the
statements, the cells without a lowering and the drivers of the netlist it was made from. No more is
asked than that an identity stands for one cell, in the netlist and in all replacements. -/
theorem lowerNetlist_keeps (table : Table) (limit : Nat) (n g : Netlist) (memo memo' : Memo)
    (s s' : Supply) (catalogue : CellId → Cell)
    (run : ((lowerNetlist table limit n).run memo).run.run s = (.ok (g, memo'), s'))
    (known : Checked catalogue memo) (input : n.Catalogued catalogue)
    (made : ∀ r ∈ memo'.values, r.Catalogued catalogue) :
    (∀ c ∈ g.cells.values, c.tag.native = true ∧ table.contains c.tag = false) ∧
      (∀ i c, n.cells.get? i = some c → table.contains c.tag = false →
        g.cells.get? i = some c) ∧
      n.comb <+: g.comb ∧
      (∀ d ss, n.sync.get? d = some ss → ∃ more, g.sync.get? d = some (ss ++ more)) ∧
      ∀ s ∈ n.driven, s ∈ g.driven := by
  have lowered : Lowered table n memo g memo' := lowered_of_run run
  have keeps : Keeps table n g := by
    apply lowered.keeps known input
    intro i r found
    exact made r (List.mem_map.mpr ⟨(i, r), OrdMap.get?_eq_some_iff.mp found, rfl⟩)
  exact ⟨fun c hc => native_of_pending lowered.pending_eq hc, keeps.cells, keeps.comb, keeps.sync,
    keeps.driven⟩

end Keeping

/-! ### Two rounds -/

/-- An input buffer made from a pad, which has to be lowered itself. -/
def padInput : Lowering where
  name := "pad_input"
  lower c := do
    let .diffInput d := c.kind | throw (cannot "pad_input" c)
    let pad ← Cell.fresh (.tristate { target := d.output, o := d.p, oe := .bool true, i := none })
    return ({} : Netlist).addCell pad

open Signal (wire)

/-- The cells by number: those of the input, the pad of the first round and the buffer of the
second. -/
def bufferedCells (i : CellId) : Cell where
  id := i
  kind :=
    match i.index with
    | 0 => .diffInput ⟨wire 0 "p" 1, wire 1 "n" 1, wire 2 "o" 1⟩
    | 1 => .directive ⟨"keep", []⟩
    | 2 => .tristate ⟨wire 2 "o" 1, wire 0 "p" 1, .bool true, none⟩
    | _ => .inst { of := "IOBUF", items := [.connect .input "I" (wire 0 "p" 1),
        .connect .input "T" (.unary .invert (.bool true)), .connect .inout "IO" (wire 2 "o" 1)] }

/-- Some of the cells. -/
def bufferedWith (ids : List Nat) : OrdMap CellId Cell :=
  .ofList (ids.map fun i => (⟨i⟩, bufferedCells ⟨i⟩))

/-- A differential input in front of a register, next to a directive. -/
def bufferedInput : Netlist where
  comb := [.assign (wire 4 "y" 1) (wire 3 "q" 1)]
  sync := .ofList [("sys", [.assign (wire 3 "q" 1) (wire 2 "o" 1)])]
  cells := bufferedWith [0, 1]

/-- What is remembered of two rounds. -/
def bufferedMemo : Memo :=
  .ofList [(⟨0⟩, { cells := bufferedWith [2] }), (⟨2⟩, { cells := bufferedWith [3] })]

theorem bufferedInput_keeps :
    ((lowerNetlist (.ofList [(.diffInput, padInput), (.tristate, tristate)]) 3 bufferedInput).run
        ∅).run.run ⟨5, 2⟩ =
      (.ok ({ bufferedInput with cells := bufferedWith [1, 3] }, bufferedMemo), ⟨5, 4⟩) ∧
    bufferedInput.Catalogued bufferedCells ∧
    (∀ r ∈ bufferedMemo.values, r.Catalogued bufferedCells) ∧
    (bufferedWith [1, 3]).get? ⟨1⟩ = some (bufferedCells ⟨1⟩) ∧
    wire 2 "o" 1 ∈ { bufferedInput with cells := bufferedWith [1, 3] : Netlist }.driven := by
  have run : ((lowerNetlist (.ofList [(.diffInput, padInput), (.tristate, tristate)]) 3
      bufferedInput).run ∅).run.run ⟨5, 2⟩ =
      (.ok ({ bufferedInput with cells := bufferedWith [1, 3] }, bufferedMemo), ⟨5, 4⟩) := by
    rfl
  have input : bufferedInput.Catalogued bufferedCells := by decide +kernel
  have made : ∀ r ∈ bufferedMemo.values, r.Catalogued bufferedCells := by decide +kernel
  obtain ⟨_, stays, _, _, driven⟩ := lowerNetlist_keeps _ 3 bufferedInput _ ∅ bufferedMemo ⟨5, 2⟩
    ⟨5, 4⟩ bufferedCells run (by rintro e he; cases he) input made
  exact ⟨run, input, made, stays ⟨1⟩ _ (by decide +kernel) (by decide +kernel),
    driven _ (by decide +kernel)⟩

end Lowering

end Gateware
