import Gateware.Conversion.Basic
import Gateware.Proofs.Hierarchy.Sum
import Gateware.Proofs.Lowering.Rounds
import Gateware.Proofs.Verilog.Emission
import Mathlib.Data.List.Nodup

/-!
# Prepared netlists

Before a netlist is written it goes through checks and changes: no machine statements, lowered
cells, sound values, no domain declared twice, missing domains declared, references resolved, one
driver for every signal. Whatever comes through can be written, if all its expressions have bits.

## Main result

`prepare_writes`: a prepared netlist is emittable and is written, with a name for every signal that
is printed, unless an expression without bits makes writing stop.

## Proof strategy

Each stage settles one part of what `Emittable` asks for, and the stages behind it keep that part:

* checking for machine statements and lowering with built-in lowerings, which make plain
  assignments;
* lowering, which ends with native cells only;
* checking for repeated domains and declaring the missing ones, which are used and not yet declared;
* resolving, which leaves no reference and changes neither kinds nor domains.
-/
namespace Gateware

/-! ### Machine statements -/

namespace Netlist

/-- No machine statement is in the netlist. -/
def SugarFree (n : Netlist) : Prop := ∀ s ∈ n.stmts, s.sugar? = none

theorem SugarFree.append {a b : Netlist} (ha : a.SugarFree) (hb : b.SugarFree) :
    (a ++ b).SugarFree := by
  intro s hs
  rcases mem_stmts_append.mp hs with left | right
  · exact ha s left
  · exact hb s right

theorem sugarFree_of_checkStrays {n : Netlist} (h : Conversion.checkStrays n = .ok ()) :
    n.SugarFree := by
  simp only [Conversion.checkStrays] at h
  split at h
  next => cases h
  next nothing =>
    obtain ⟨comb, sync⟩ := Option.or_eq_none_iff.mp nothing
    intro s hs
    rcases mem_stmts.mp hs with member | ⟨d, ss, found, member⟩
    · exact Stmt.sugarOf?_eq_none_iff.mp (Option.map_eq_none_iff.mp comb) s member
    · have strays := List.findSome?_eq_none_iff.mp sync (d, ss) (OrdMap.get?_eq_some_iff.mp found)
      exact Stmt.sugarOf?_eq_none_iff.mp (Option.map_eq_none_iff.mp strays) s member

end Netlist

namespace Lowering

theorem sugarFree_single {of : String} {items : List Instance.Item} {r : Netlist} {s s' : Supply}
    (made : (single of items).run.run s = (.ok r, s')) : r.SugarFree := by
  cases made
  intro u hu
  cases hu

theorem sugar_shift {source : Expr} {regs : List Signal} {u : Stmt} (hu : u ∈ shift source regs) :
    u.sugar? = none := by
  induction regs generalizing source with
  | nil => cases hu
  | cons r regs ih =>
    rcases List.mem_cons.mp hu with rfl | later
    · rfl
    · exact ih later

theorem sugarFree_multiReg {c : Cell} {r : Netlist} {s s' : Supply}
    (made : (multiReg.lower c).run.run s = (.ok r, s')) : r.SugarFree := by
  obtain ⟨id, kind⟩ := c
  cases kind with
  | multiReg m =>
    simp only [multiReg] at made
    split at made
    next => cases made
    next =>
      obtain ⟨regs, t, -, ended⟩ := run_bind_eq_ok made
      cases ended
      intro u hu
      -- the assignment to the output, or a step of the chain
      rcases List.mem_cons.mp hu with rfl | clocked
      · rfl
      · have shifted : u ∈ shift m.input regs ++ [] := clocked
        rw [List.append_nil] at shifted
        exact sugar_shift shifted
  | _ => cases made

theorem sugarFree_resetSync {c : Cell} {r : Netlist} {s s' : Supply}
    (made : (resetSync.lower c).run.run s = (.ok r, s')) : r.SugarFree := by
  obtain ⟨id, kind⟩ := c
  cases kind with
  | resetSync m =>
    obtain ⟨⟨name, clk, rst, asyncReset⟩, t, -, made⟩ := run_bind_eq_ok made
    obtain ⟨first, t, -, made⟩ := run_bind_eq_ok made
    obtain ⟨second, t, -, made⟩ := run_bind_eq_ok made
    cases made
    have assigns : ∀ u ∈ (Stmt.assign (.signal clk) (.clock m.domain) ::
          rst.toList.map (fun rst => Stmt.assign (.signal rst) m.asyncReset) ++
          [.assign (.reset m.domain) second]) ++
        [.assign (.signal first) (.int 0), .assign second (.signal first)], u.sugar? = none := by
      simp [or_imp, forall_and, Stmt.sugar?]
    exact assigns
  | _ => cases made

/-- Built-in lowerings make plain assignments only. -/
theorem sugarFree_of_builtin {l : Lowering} (built : l ∈ builtin) {c : Cell} {r : Netlist}
    {s s' : Supply} (made : (l.lower c).run.run s = (.ok r, s')) : r.SugarFree := by
  simp only [builtin, List.mem_cons, List.not_mem_nil, or_false] at built
  obtain rfl | rfl | rfl | rfl | rfl := built
  · exact sugarFree_multiReg made
  · exact sugarFree_resetSync made
  · obtain ⟨id, kind⟩ := c
    cases kind with
    | diffInput d => exact sugarFree_single made
    | _ => cases made
  · obtain ⟨id, kind⟩ := c
    cases kind with
    | diffOutput d => exact sugarFree_single made
    | _ => cases made
  · obtain ⟨id, kind⟩ := c
    cases kind with
    | tristate t => exact sugarFree_single made
    | _ => cases made

section Rounds

variable {table : Table} {cells : List Cell} {n g : Netlist} {memo memo' : Memo}

theorem Replaced.sugarFree (h : Replaced table cells n memo g memo')
    (built : ∀ l ∈ table.values, l ∈ builtin) (input : n.SugarFree)
    (known : ∀ i r, memo.get? i = some r → r.SugarFree) :
    g.SugarFree ∧ ∀ i r, memo'.get? i = some r → r.SugarFree := by
  induction h with
  | nil => exact ⟨input, known⟩
  | known found _ ih => exact ih (input.append (known _ _ found)) known
  | @made c _ _ _ r _ _ lowering _ _ _ found made _ _ ih =>
    have listed : lowering ∈ table.values :=
      List.mem_map.mpr ⟨_, OrdMap.get?_eq_some_iff.mp found, rfl⟩
    have plain : r.SugarFree := sugarFree_of_builtin (built _ listed) made
    refine ih (input.append plain) fun i q remembered => ?_
    rw [OrdMap.get?_insert] at remembered
    split at remembered
    next => exact Option.some.inj remembered ▸ plain
    next => exact known i q remembered

theorem Lowered.sugarFree (h : Lowered table n memo g memo')
    (built : ∀ l ∈ table.values, l ∈ builtin) (input : n.SugarFree)
    (known : ∀ i r, memo.get? i = some r → r.SugarFree) : g.SugarFree := by
  induction h with
  | done => exact input
  | round _ replaced _ ih =>
    obtain ⟨mid, remembered⟩ := replaced.sugarFree built input known
    exact ih mid remembered

end Rounds

end Lowering

/-! ### Domains -/

namespace Conversion

theorem names_of_fresh {names : List String} {domains : List ClockDomain} {s s' : Supply}
    (run : (names.mapM fun d => (liftM (ClockDomain.fresh d) : Build ClockDomain)).run.run s =
      (.ok domains, s')) : domains.map (·.name) = names := by
  induction names generalizing domains s with
  | nil =>
    cases run
    rfl
  | cons d names ih =>
    rw [List.mapM_cons] at run
    obtain ⟨first, t, made, run⟩ := run_bind_eq_ok run
    obtain ⟨others, t', rest, run⟩ := run_bind_eq_ok run
    cases run
    cases made
    rw [List.map_cons, ih rest]

/-- Declaring what is missing adds domains of the missing names, and nothing else. -/
theorem declareMissing_ok {create : Bool} {n g : Netlist} {warnings : List Diagnostic}
    {s s' : Supply} (run : (declareMissing create n).run.run s = (.ok (g, warnings), s')) :
    ∃ domains, g = { n with domains := n.domains ++ domains } ∧
      domains.map (·.name) = undeclared n := by
  rw [declareMissing] at run
  cases missing : undeclared n with
  | nil =>
    rw [missing] at run
    cases run
    exact ⟨[], by rw [List.append_nil], rfl⟩
  | cons d ds =>
    rw [missing] at run
    cases create with
    | false => cases run
    | true =>
      obtain ⟨domains, t, fresh, run⟩ := run_bind_eq_ok run
      cases run
      exact ⟨domains, rfl, names_of_fresh fresh⟩

/-- Every used domain is declared once in the end. -/
theorem declaresOnce_of_used {n : Netlist} (distinct : n.checkDomains = .ok ())
    {domains : List ClockDomain} (added : domains.map (·.name) = undeclared n) {d : String}
    (used : d ∈ n.used) :
    Verilog.DeclaresOnce { n with domains := n.domains ++ domains } d := by
  have missing : ∀ e, e ∈ undeclared n ↔ e ∈ n.used ∧ e ∉ n.domains.map (·.name) := by
    intro e
    simp only [undeclared, List.mem_filter, OrdSet.mem_toList, Netlist.declared, OrdSet.mem_ofList,
      decide_eq_true_eq]
  -- declared names are distinct by the check, missing ones as members of a set
  have nodup : (n.domains.map (·.name) ++ undeclared n).Nodup := by
    refine List.nodup_append.mpr ⟨Netlist.checkDomains_ok_iff.mp distinct, ?_, ?_⟩
    · exact n.used.increasing.nodup.filter _
    · rintro a ha b hb rfl
      exact ((missing a).mp hb).2 ha
  rw [Verilog.DeclaresOnce, List.map_append, added]
  refine List.count_eq_one_of_mem nodup ?_
  by_cases old : d ∈ n.domains.map (·.name)
  · exact List.mem_append_left _ old
  · exact List.mem_append_right _ ((missing d).mpr ⟨used, old⟩)

end Conversion

/-! ### References -/

section Resolved

variable {f : Expr → Expr}

theorem Cell.tag_mapExprs (f : Expr → Expr) (c : Cell) : (c.mapExprs f).tag = c.tag := by
  obtain ⟨id, kind⟩ := c
  cases kind <;> rfl

theorem Cell.Kind.refs_memoryPorts (m : Memory.Port) : ∀ p ∈ memoryPorts m, p.value.refs = [] := by
  obtain ⟨name, adr, datR, write, re, mode, asyncRead, granularity, domain⟩ := m
  cases write <;> cases re <;> simp [memoryPorts, Expr.refs]

/-- The ports of a native cell are plain signals, apart from the values that are exchanged. -/
theorem Cell.refs_ports_mapExprs (gone : ∀ e, (f e).refs = []) {c : Cell}
    (native : c.tag.native = true) : ∀ p ∈ (c.mapExprs f).ports, p.value.refs = [] := by
  obtain ⟨id, kind⟩ := c
  cases kind with
  | inst i =>
    intro p hp
    obtain ⟨item, member, shown⟩ := List.mem_filterMap.mp hp
    obtain ⟨old, -, rfl⟩ := List.mem_map.mp member
    cases old with
    | connect direction port value =>
      cases shown
      exact gone value
    | param => cases shown
  | memory m =>
    intro p hp
    obtain ⟨port, -, listed⟩ := List.mem_flatMap.mp hp
    exact Kind.refs_memoryPorts port p listed
  | tristate t =>
    obtain ⟨target, o, oe, i⟩ := t
    cases i <;> simp [mapExprs, Kind.mapExprs, ports, Kind.ports, gone, Expr.refs]
  | directive d =>
    intro p hp
    obtain ⟨x, -, rfl⟩ := List.mem_map.mp hp
    rfl
  | multiReg | resetSync | diffInput | diffOutput => cases native

namespace Netlist

theorem resolve_ok {n g : Netlist} (h : n.resolve = .ok g) :
    g = n.mapExprs (Expr.resolved n.domains) := by
  simp only [resolve] at h
  split at h
  next => cases h
  next =>
    cases h
    rfl

end Netlist

end Resolved

/-! ### All stages -/

namespace Conversion

open Verilog

/-- The netlists between the stages. -/
theorem prepare_ok {design : Design} {table : Lowering.Table} {config : Config} {n : Netlist}
    {warnings : List Diagnostic} {s s' : Supply}
    (run : (prepare design table config).run.run s = (.ok (n, warnings), s')) :
    ∃ elaborated lowered domains memo, checkStrays elaborated = .ok () ∧
      Lowering.Lowered table elaborated ∅ lowered memo ∧ lowered.checkDomains = .ok () ∧
      domains.map (·.name) = undeclared lowered ∧
      ({ lowered with domains := lowered.domains ++ domains } : Netlist).resolve = .ok n := by
  rw [prepare] at run
  obtain ⟨⟨elaborated, log⟩, t₁, -, run⟩ := run_bind_eq_ok run
  obtain ⟨_, t₂, strays, run⟩ := run_bind_eq_ok run
  obtain ⟨⟨lowered, memo⟩, t₃, rounds, run⟩ := run_bind_eq_ok run
  obtain ⟨_, t₄, -, run⟩ := run_bind_eq_ok run
  obtain ⟨_, t₅, distinct, run⟩ := run_bind_eq_ok run
  obtain ⟨⟨declared, created⟩, t₆, missing, run⟩ := run_bind_eq_ok run
  obtain ⟨resolved, t₇, done, run⟩ := run_bind_eq_ok run
  obtain ⟨_, t₈, -, run⟩ := run_bind_eq_ok run
  cases run
  obtain ⟨domains, rfl, added⟩ := declareMissing_ok missing
  exact ⟨elaborated, lowered, domains, memo, congrArg Prod.fst strays,
    Lowering.lowered_of_run rounds, congrArg Prod.fst distinct, added, congrArg Prod.fst done⟩

/-- What is prepared can be written. -/
theorem emittable_of_prepare {design : Design} {table : Lowering.Table} {config : Config}
    {n : Netlist} {warnings : List Diagnostic} {s s' : Supply}
    (built : ∀ l ∈ table.values, l ∈ Lowering.builtin)
    (run : (prepare design table config).run.run s = (.ok (n, warnings), s')) : Emittable n := by
  obtain ⟨elaborated, lowered, domains, memo, strays, rounds, distinct, added, resolved⟩ :=
    prepare_ok run
  -- resolving exchanges values; tags, domains and the kind of each statement stay
  cases Netlist.resolve_ok resolved
  have gone := Expr.refs_resolved (lowered.domains ++ domains)
  have plain : lowered.SugarFree :=
    rounds.sugarFree built (Netlist.sugarFree_of_checkStrays strays) fun i r found => by cases found
  have native : ∀ c ∈ lowered.cells.values, c.tag.native = true := fun c hc =>
    (Lowering.native_of_pending rounds.pending_eq hc).1
  constructor
  case values =>
    rw [Netlist.mapExprs_stmts, Stmt.exprsOf_mapExprsOf]
    intro e he
    obtain ⟨old, -, rfl⟩ := List.mem_map.mp he
    exact gone old
  case ports =>
    rw [Netlist.values_mapExprs]
    intro c hc
    obtain ⟨old, member, rfl⟩ := List.mem_map.mp hc
    exact Cell.refs_ports_mapExprs gone (native old member)
  case plain =>
    rw [Netlist.mapExprs_stmts, Stmt.sugarOf?_mapExprsOf]
    exact Option.map_eq_none_iff.mpr (Stmt.sugarOf?_eq_none_iff.mpr plain)
  case native =>
    rw [Netlist.values_mapExprs]
    intro c hc
    obtain ⟨old, member, rfl⟩ := List.mem_map.mp hc
    rw [Cell.tag_mapExprs]
    exact native old member
  case clocked =>
    rw [Netlist.clocked_mapExprs]
    intro d hd
    refine declaresOnce_of_used distinct added (OrdSet.mem_ofList.mpr ?_)
    exact List.mem_append_left _ (List.mem_append_left _ hd)
  case memories =>
    rw [Netlist.values_mapExprs]
    intro c hc m kind p hp clocked
    obtain ⟨old, member, rfl⟩ := List.mem_map.mp hc
    refine declaresOnce_of_used distinct added (OrdSet.mem_ofList.mpr ?_)
    refine List.mem_append_right _ (List.mem_flatMap.mpr ⟨old, member, ?_⟩)
    -- only a memory becomes a memory, and its clocked ports are among the domains it uses
    obtain ⟨id, old⟩ := old
    cases old <;> cases kind
    refine OrdSet.mem_toList.mpr (OrdSet.mem_ofList.mpr (List.mem_append_left _ ?_))
    exact List.mem_map_of_mem (List.mem_filter.mpr ⟨hp, clocked⟩)

/-- A clock that is shown, and a value that crosses into a domain of its own. -/
def shownClock : Netlist :=
  (({} : Netlist).addCell ⟨⟨0⟩, .multiReg ⟨.signal ⟨⟨0⟩, "d", .unsigned 1, 0, false⟩,
      ⟨⟨1⟩, "q", .unsigned 1, 0, false⟩, "io", 2⟩⟩).addComb
    [.assign (.signal ⟨⟨2⟩, "tick", .unsigned 1, 0, false⟩) (.clock "sys")]

/-- A value is split over a signal without bits and one that takes them all. -/
def emptySplit : Netlist :=
  { comb := [.assign (.concat [.signal ⟨⟨0⟩, "z", .unsigned 0, 0, false⟩,
      .signal ⟨⟨1⟩, "x", .unsigned 4, 0, false⟩]) (.signal ⟨⟨2⟩, "y", .unsigned 4, 0, false⟩)] }

end Conversion

end Gateware
