import Gateware.Conversion.Port
import Gateware.Proofs.Drivers
import Gateware.Proofs.Renumbering.Folding

/-!
# Netlists with other numbers

All that is asked of a netlist before it is written out has the same answer under an increasing
numbering: the checks fail for the same reasons, the same warnings are given, and the same ports are
found in the same order.

## Main results

* `resolve_renumber`: resolving references commutes with renumbering.
* `checkDrivers_renumber`: a conflict of drivers is found at the same signal with the same text.
* `ports_renumber`: the ports of a renumbered netlist.
-/
namespace Gateware

open Ordered (Keeps)

variable {r : Numbering}

/-! ### Clock domains and cells -/

/-- The same identity under another number. -/
def CellId.renumber (r : Numbering) (i : CellId) : CellId := ⟨r.cell i.index⟩

theorem CellId.keeps_renumber [r.Increasing] : Keeps (CellId.renumber r) := by
  intro a b
  change compare (r.cell a.index) (r.cell b.index) = compare a.index b.index
  rcases lt_trichotomy a.index b.index with lt | eq | gt
  · rw [compare_lt_iff_lt.mpr lt, compare_lt_iff_lt.mpr (Numbering.Increasing.cell lt)]
  · rw [eq, compare_eq_iff_eq.mpr rfl, compare_eq_iff_eq.mpr rfl]
  · rw [compare_gt_iff_gt.mpr gt, compare_gt_iff_gt.mpr (Numbering.Increasing.cell gt)]

namespace ClockDomain

/-- The same domain with renumbered signals. -/
def renumber (r : Numbering) (d : ClockDomain) : ClockDomain :=
  { d with clk := d.clk.renumber r, rst := d.rst.map (Signal.renumber r) }

theorem signals_renumber (d : ClockDomain) :
    (d.renumber r).signals = d.signals.map (Signal.renumber r) := by
  cases d with
  | mk name clk rst asyncReset => cases rst <;> rfl

theorem renumber_trans {p q : Numbering} (d : ClockDomain)
    (along : ∀ s ∈ d.signals, (s.renumber p).renumber q = s.renumber r) :
    (d.renumber p).renumber q = d.renumber r := by
  obtain ⟨name, clk, rst, asyncReset⟩ := d
  cases rst <;> simp_all [signals, renumber]

end ClockDomain

/-- The same port about renumbered signals. -/
def Memory.Port.renumber (r : Numbering) (p : Memory.Port) : Memory.Port :=
  { p with
    adr := p.adr.renumber r
    datR := p.datR.renumber r
    write := p.write.map fun w => ⟨w.enable.renumber r, w.data.renumber r⟩
    re := p.re.map (Signal.renumber r) }

@[simp] theorem Memory.Port.clocked_renumber (p : Memory.Port) :
    (p.renumber r).clocked = p.clocked := by
  simp only [clocked, renumber, Option.isSome_map]

namespace Memory

/-- The same ports about renumbered signals, if their new numbers keep them apart. -/
def renumberPorts (r : Numbering) (ports : List Port) : List Port :=
  if OwnSignals (ports.map (Port.renumber r)) then ports.map (Port.renumber r) else ports

theorem OwnSignals.renumberPorts {ports : List Port} (own : OwnSignals ports) :
    OwnSignals (renumberPorts r ports) := by
  unfold Memory.renumberPorts
  split <;> assumption

/-- The same memory about renumbered signals. -/
def renumber (r : Numbering) (m : Memory) : Memory :=
  { m with ports := renumberPorts r m.ports, own := m.own.renumberPorts }

theorem ports_renumber_of_own {m : Memory} (own : OwnSignals (m.ports.map (Port.renumber r))) :
    (m.renumber r).ports = m.ports.map (Port.renumber r) := if_pos own

/-- Increasing numbers keep ports apart. -/
@[simp] theorem ports_renumber [r.Increasing] (m : Memory) :
    (m.renumber r).ports = m.ports.map (Port.renumber r) :=
  ports_renumber_of_own (m.own.map (fun _ _ _ _ same => Signal.renumber_injective same)
    fun _ _ same => Signal.renumber_injective same)

end Memory

/-- The same connection about renumbered signals. -/
def Instance.Item.renumber (r : Numbering) : Instance.Item → Instance.Item
  | .connect direction port value => .connect direction port (value.renumber r)
  | .param name value => .param name value

namespace Cell

/-- The same kind about renumbered signals. -/
def Kind.renumber (r : Numbering) : Kind → Kind
  | .inst i => .inst { i with items := i.items.map (Instance.Item.renumber r) }
  | .memory m => .memory (m.renumber r)
  | .tristate t =>
    .tristate ⟨t.target.renumber r, t.o.renumber r, t.oe.renumber r, t.i.map (Signal.renumber r)⟩
  | .multiReg m => .multiReg { m with input := m.input.renumber r, output := m.output.renumber r }
  | .resetSync s => .resetSync { s with asyncReset := s.asyncReset.renumber r }
  | .diffInput d => .diffInput ⟨d.p.renumber r, d.n.renumber r, d.output.renumber r⟩
  | .diffOutput d => .diffOutput ⟨d.input.renumber r, d.p.renumber r, d.n.renumber r⟩
  | .directive d => .directive { d with signals := d.signals.map (Signal.renumber r) }

/-- The same cell under another number and about renumbered signals. -/
def renumber (r : Numbering) (c : Cell) : Cell := ⟨c.id.renumber r, c.kind.renumber r⟩

def Port.renumber (r : Numbering) (p : Port) : Port := { p with value := p.value.renumber r }

@[simp] theorem tag_renumber (c : Cell) : (c.renumber r).tag = c.tag := by
  obtain ⟨id, kind⟩ := c
  cases kind <;> rfl

@[simp] theorem describe_renumber (c : Cell) : (c.renumber r).describe = c.describe := by
  obtain ⟨id, kind⟩ := c
  cases kind <;> rfl

theorem Kind.memoryPorts_renumber (p : Memory.Port) :
    memoryPorts (p.renumber r) = (memoryPorts p).map (Port.renumber r) := by
  obtain ⟨name, adr, datR, write, re, mode, asyncRead, granularity, domain⟩ := p
  cases write <;> cases re <;> rfl

theorem Kind.ports_renumber [r.Increasing] (k : Kind) :
    (k.renumber r).ports = k.ports.map (Port.renumber r) := by
  cases k with
  | inst i =>
    simp only [Kind.renumber, Kind.ports, List.filterMap_map, List.map_filterMap]
    congr 1
    funext item
    cases item <;> rfl
  | memory m =>
    simp only [Kind.renumber, Kind.ports, Memory.ports_renumber, List.flatMap_map,
      List.map_flatMap, Kind.memoryPorts_renumber]
  | tristate t =>
    obtain ⟨target, o, oe, i⟩ := t
    cases i <;> rfl
  | multiReg | resetSync | diffInput | diffOutput => rfl
  | directive d =>
    simp only [Kind.renumber, Kind.ports, List.zipIdx_map, List.map_map]
    rfl

theorem ports_renumber [r.Increasing] (c : Cell) :
    (c.renumber r).ports = c.ports.map (Port.renumber r) :=
  Kind.ports_renumber c.kind

theorem outputs_renumber [r.Increasing] (c : Cell) :
    (c.renumber r).outputs = c.outputs.map (Port.renumber r) := by
  rw [outputs, outputs, ports_renumber, List.filter_map]
  rfl

theorem Kind.homes_renumber [r.Increasing] (k : Kind) : (k.renumber r).homes = k.homes := by
  cases k with
  | memory m =>
    simp only [Kind.renumber, Kind.homes, Memory.ports_renumber, List.filter_map, List.map_map,
      Function.comp_def, Memory.Port.clocked_renumber]
    rfl
  | _ => rfl

@[simp] theorem domains_renumber [r.Increasing] (c : Cell) :
    (c.renumber r).domains = c.domains := by
  simp only [domains, ports_renumber, List.flatMap_map, Port.renumber, Expr.refs_renumber]
  rw [renumber, Kind.homes_renumber]

theorem Kind.exprs_renumber (k : Kind) : (k.renumber r).exprs = k.exprs.map (Expr.renumber r) := by
  cases k with
  | inst i =>
    simp only [Kind.renumber, Kind.exprs, List.filterMap_map, List.map_filterMap]
    congr 1
    funext item
    cases item <;> rfl
  | _ => rfl

section Twice

variable {p q : Numbering}

theorem Kind.memoryPort_trans (m : Memory.Port)
    (along : ∀ x ∈ memoryPorts m, ∀ s ∈ x.value.mentions,
      (s.renumber p).renumber q = s.renumber r) :
    (m.renumber p).renumber q = m.renumber r := by
  obtain ⟨name, adr, datR, write, re, mode, asyncRead, granularity, domain⟩ := m
  cases write <;> cases re <;>
    simp_all [memoryPorts, Memory.Port.renumber, Expr.mentions]

/-- A memory shows nothing but the values at its ports. -/
theorem Kind.memory_trans [q.Increasing] [r.Increasing] (m : Memory)
    (along : ∀ port ∈ m.ports, ∀ x ∈ memoryPorts port, ∀ s ∈ x.value.mentions,
      (s.renumber p).renumber q = s.renumber r) :
    (m.renumber p).renumber q = m.renumber r := by
  have adr : ∀ port ∈ m.ports, (port.adr.renumber p).renumber q = port.adr.renumber r :=
    fun port hp => along port hp ⟨s!"{port.name}.adr", port.adr, .input⟩ (by simp [memoryPorts])
      port.adr (.head _)
  have datR : ∀ port ∈ m.ports, (port.datR.renumber p).renumber q = port.datR.renumber r :=
    fun port hp => along port hp ⟨s!"{port.name}.dat_r", port.datR, .output⟩ (by simp [memoryPorts])
      port.datR (.head _)
  have own : Memory.OwnSignals (m.ports.map (Memory.Port.renumber p)) := by
    refine m.own.map (fun a ha b hb same => ?_) fun a ha same => ?_
    · have same : a.datR.renumber p = b.datR.renumber p := same
      exact Signal.renumber_injective (by rw [← datR a ha, ← datR b hb, same])
    · have same : a.adr.renumber p = a.datR.renumber p := same
      exact Signal.renumber_injective (by rw [← adr a ha, ← datR a ha, same])
  have ports : ((m.renumber p).renumber q).ports = (m.renumber r).ports := by
    rw [(m.renumber p).ports_renumber, Memory.ports_renumber_of_own own, List.map_map,
      m.ports_renumber]
    exact List.map_congr_left fun port hp => memoryPort_trans port (along port hp)
  simp only [Memory.renumber] at ports ⊢
  simp only [ports]

/-- A kind shows nothing but the values at its ports. -/
theorem Kind.renumber_trans [q.Increasing] [r.Increasing] (k : Kind)
    (along : ∀ x ∈ k.ports, ∀ s ∈ x.value.mentions, (s.renumber p).renumber q = s.renumber r) :
    (k.renumber p).renumber q = k.renumber r := by
  have value : ∀ x ∈ k.ports, (x.value.renumber p).renumber q = x.value.renumber r :=
    fun x hx => Expr.renumber_trans x.value (along x hx)
  cases k with
  | inst i =>
    simp only [renumber, List.map_map]
    refine congrArg (fun items => Kind.inst { i with items })
      (List.map_congr_left fun item hi => ?_)
    cases item with
    | connect direction port v =>
      have listed : ⟨port, v, direction⟩ ∈ (Kind.inst i).ports :=
        List.mem_filterMap.mpr ⟨_, hi, rfl⟩
      simp only [Function.comp_apply, Instance.Item.renumber, value _ listed]
    | param name value => rfl
  | memory m =>
    refine congrArg Kind.memory (memory_trans m fun port hp x hx => ?_)
    exact along x (List.mem_flatMap.mpr ⟨port, hp, hx⟩)
  | tristate t =>
    obtain ⟨target, o, oe, i⟩ := t
    cases i <;> simp_all [ports, renumber, Expr.renumber]
  | directive d =>
    simp only [renumber, List.map_map]
    refine congrArg (fun signals => Kind.directive { d with signals })
      (List.map_congr_left fun s hs => ?_)
    -- the signals of a directive are its ports, under their positions
    obtain ⟨i, hi⟩ := List.mem_iff_getElem?.mp hs
    have listed : ⟨toString i, .signal s, .input⟩ ∈ (Kind.directive d).ports :=
      List.mem_map.mpr ⟨(s, i), List.mk_mem_zipIdx_iff_getElem?.mpr hi, rfl⟩
    exact along _ listed s List.mem_cons_self
  | multiReg _ | resetSync _ | diffInput _ | diffOutput _ =>
    simp_all [ports, renumber, Expr.renumber]

theorem renumber_trans [q.Increasing] [r.Increasing] (c : Cell)
    (id : (c.id.renumber p).renumber q = c.id.renumber r)
    (along : ∀ x ∈ c.ports, ∀ s ∈ x.value.mentions, (s.renumber p).renumber q = s.renumber r) :
    (c.renumber p).renumber q = c.renumber r := by
  rw [renumber, renumber, renumber, id, Kind.renumber_trans c.kind along]

end Twice

theorem mapExprs_renumber {f f' : Expr → Expr} (along : ∀ e, f' (e.renumber r) = (f e).renumber r)
    (c : Cell) : (c.renumber r).mapExprs f' = (c.mapExprs f).renumber r := by
  obtain ⟨id, kind⟩ := c
  cases kind with
  | inst i =>
    simp only [renumber, mapExprs, Kind.renumber, Kind.mapExprs, List.map_map]
    congr 4
    funext item
    cases item with
    | connect direction port value =>
      exact congrArg (Instance.Item.connect direction port) (along value)
    | param => rfl
  | memory | diffInput | directive => rfl
  | tristate | multiReg | resetSync | diffOutput =>
    simp only [renumber, mapExprs, Kind.renumber, Kind.mapExprs, along]

end Cell

namespace Netlist

/-- The same netlist under other numbers. -/
def renumber (r : Numbering) (n : Netlist) : Netlist where
  comb := Stmt.renumberOf r n.comb
  sync := n.sync.map (Stmt.renumberOf r)
  cells := n.cells.rekey (CellId.renumber r) (Cell.renumber r)
  domains := n.domains.map (ClockDomain.renumber r)

theorem entries_sync_renumber (n : Netlist) :
    (n.renumber r).sync.entries = n.sync.entries.map fun e => (e.1, Stmt.renumberOf r e.2) := rfl

theorem values_sync_renumber (n : Netlist) :
    (n.renumber r).sync.values = n.sync.values.map (Stmt.renumberOf r) := by
  simp only [renumber, OrdMap.map, OrdMap.mapWithKey, OrdMap.values, List.map_map]
  rfl

theorem values_cells_renumber [r.Increasing] (n : Netlist) :
    (n.renumber r).cells.values = n.cells.values.map (Cell.renumber r) :=
  OrdMap.values_rekey CellId.keeps_renumber n.cells

/-- Values exchanged in all statements. -/
theorem mapExprs_stmts (f : Expr → Expr) (n : Netlist) :
    (n.mapExprs f).stmts = Stmt.mapExprsOf f n.stmts := by
  simp only [stmts, mapExprs, OrdMap.map, OrdMap.mapWithKey, OrdMap.values, Stmt.mapExprsOf_eq,
    List.map_append, List.map_map, List.map_flatten, Function.comp_def]

theorem values_mapExprs (f : Expr → Expr) (n : Netlist) :
    (n.mapExprs f).cells.values = n.cells.values.map (Cell.mapExprs f) := by
  simp only [mapExprs, OrdMap.map, OrdMap.mapWithKey, OrdMap.values, List.map_map]
  rfl

theorem clocked_mapExprs (f : Expr → Expr) (n : Netlist) : (n.mapExprs f).clocked = n.clocked := by
  have entries : (n.mapExprs f).sync.entries =
      n.sync.entries.map fun e => (e.1, Stmt.mapExprsOf f e.2) := rfl
  rw [clocked, clocked, entries, List.filter_map, List.map_map]
  simp only [Function.comp_def, Stmt.isEmpty_mapExprsOf]

theorem stmts_renumber (n : Netlist) : (n.renumber r).stmts = Stmt.renumberOf r n.stmts :=
  mapExprs_stmts (Expr.renumber r) n

@[simp] theorem renumber_empty : renumber r {} = {} := rfl

theorem append_renumber [r.Increasing] (a b : Netlist) :
    a.renumber r ++ b.renumber r = (a ++ b).renumber r := by
  change append (a.renumber r) (b.renumber r) = (append a b).renumber r
  simp only [append, renumber, Stmt.mapExprsOf_eq, List.map_append, OrdMap.map_eq_rekey]
  congr 1
  · apply OrdMap.unionWith_rekey (fun _ _ => rfl)
    intro x y
    simp only [Stmt.mapExprsOf_eq, List.map_append]
  · apply OrdMap.unionWith_rekey CellId.keeps_renumber
    exact fun _ _ => rfl

theorem addCell_renumber [r.Increasing] (n : Netlist) (c : Cell) :
    (n.renumber r).addCell (c.renumber r) = (n.addCell c).renumber r := by
  rw [addCell, addCell, renumber, renumber, ← OrdMap.insertNew_rekey CellId.keeps_renumber]
  rfl

theorem addComb_renumber (n : Netlist) (ss : List Stmt) :
    (n.renumber r).addComb (Stmt.renumberOf r ss) = (n.addComb ss).renumber r := by
  simp only [addComb, renumber, Stmt.mapExprsOf_eq, List.map_append]

theorem addSync_renumber (n : Netlist) (domain : String) (ss : List Stmt) :
    (n.renumber r).addSync domain (Stmt.renumberOf r ss) = (n.addSync domain ss).renumber r := by
  simp only [addSync, renumber, OrdMap.map_eq_rekey]
  congr 1
  apply OrdMap.alter_rekey (fun _ _ => rfl)
  intro old
  cases old <;> simp only [Option.map_none, Option.map_some, Option.getD_none, Option.getD_some,
    Stmt.mapExprsOf_eq, List.map_append, List.nil_append]

/-! ### Drivers -/

theorem cellTargets_renumber [r.Increasing] (c : Cell) :
    cellTargets (c.renumber r) = (cellTargets c).image (Signal.renumber r) := by
  rw [cellTargets, cellTargets, Cell.outputs_renumber, ← OrdSet.ofList_map Signal.keeps_renumber,
    List.flatMap_map, List.map_flatMap]
  simp only [Cell.Port.renumber, Expr.drives_renumber]

theorem driven_renumber [r.Increasing] (n : Netlist) :
    (n.renumber r).driven = n.driven.image (Signal.renumber r) := by
  rw [driven, driven, ← OrdSet.ofList_map Signal.keeps_renumber, stmts_renumber,
    Stmt.targetDrives_renumberOf, values_cells_renumber, List.map_append]
  simp only [List.flatMap_map, List.map_flatMap, cellTargets_renumber,
    OrdSet.toList_image Signal.keeps_renumber]

/-- The same owners of renumbered signals. -/
def renumberOwners (r : Numbering) (owners : OrdMap Signal Driver) : OrdMap Signal Driver :=
  owners.rekey (Signal.renumber r) id

theorem claim_renumber [r.Increasing] (who : Driver) (owners : OrdMap Signal Driver) (s : Signal) :
    claim who (renumberOwners r owners) (s.renumber r) =
      (claim who owners s).map (renumberOwners r) := by
  rw [claim, claim, renumberOwners, OrdMap.get?_rekey Signal.keeps_renumber, Option.map_id, id_def]
  cases owners.get? s with
  | none => exact congrArg Except.ok (OrdMap.insert_rekey Signal.keeps_renumber owners s who)
  | some first =>
    simp only
    split <;> rfl

theorem claimStmts_renumber [r.Increasing] (who : Driver) (owners : OrdMap Signal Driver)
    (ss : List Stmt) :
    claimStmts who (renumberOwners r owners) (Stmt.renumberOf r ss) =
      (claimStmts who owners ss).map (renumberOwners r) := by
  rw [claimStmts, claimStmts, Stmt.targetFault?_renumberOf]
  cases Stmt.targetFault? ss with
  | some fault => rfl
  | none =>
    simp only
    rw [Stmt.assigned_renumberOf, OrdSet.toList_image Signal.keeps_renumber]
    exact foldlM_map_comm (claim_renumber who) _ _

theorem drivers_renumber [r.Increasing] (n : Netlist) :
    (n.renumber r).drivers = n.drivers.map (renumberOwners r) := by
  apply bind_map_comm (claimStmts_renumber .comb ∅ n.comb)
  intro owners
  apply bind_map_comm (g := renumberOwners r)
  · rw [entries_sync_renumber]
    apply foldlM_map_comm
    exact fun o e => claimStmts_renumber (.sync e.1) o e.2
  intro owners
  rw [values_cells_renumber]
  apply foldlM_map_comm
  intro o c
  rw [Cell.describe_renumber, cellTargets_renumber, OrdSet.toList_image Signal.keeps_renumber]
  exact foldlM_map_comm (claim_renumber _) _ _

@[simp] theorem checkDrivers_renumber [r.Increasing] (n : Netlist) :
    (n.renumber r).checkDrivers = n.checkDrivers := by
  rw [checkDrivers, checkDrivers, drivers_renumber]
  cases n.drivers <;> rfl

/-! ### Domains and references -/

theorem name_domains_renumber (n : Netlist) :
    (n.renumber r).domains.map (·.name) = n.domains.map (·.name) := by
  rw [renumber, List.map_map]
  rfl

@[simp] theorem declared_renumber (n : Netlist) : (n.renumber r).declared = n.declared := by
  rw [declared, declared, name_domains_renumber]

@[simp] theorem checkDomains_renumber (n : Netlist) :
    (n.renumber r).checkDomains = n.checkDomains := by
  rw [checkDomains, checkDomains, name_domains_renumber]

theorem exprs_renumber (n : Netlist) :
    Stmt.exprsOf (n.renumber r).stmts = (Stmt.exprsOf n.stmts).map (Expr.renumber r) := by
  rw [stmts_renumber, Stmt.exprsOf_mapExprsOf]

@[simp] theorem clocked_renumber (n : Netlist) : (n.renumber r).clocked = n.clocked :=
  clocked_mapExprs (Expr.renumber r) n

@[simp] theorem used_renumber [r.Increasing] (n : Netlist) : (n.renumber r).used = n.used := by
  rw [used, used, clocked_renumber, exprs_renumber, values_cells_renumber]
  simp only [List.flatMap_map, Expr.refs_renumber, Cell.domains_renumber]

end Netlist

theorem ClockDomain.find?_renumber (domains : List ClockDomain) (name : String) :
    (domains.map (renumber r)).find? (·.name = name) =
      (domains.find? (·.name = name)).map (renumber r) := by
  rw [List.find?_map]
  rfl

theorem DomainRef.resolve_renumber (domains : List ClockDomain) (d : DomainRef) :
    d.resolve (domains.map (ClockDomain.renumber r)) =
      (d.resolve domains).map (Expr.renumber r) := by
  cases d with
  | clock name =>
    rw [resolve, resolve, ClockDomain.find?_renumber]
    cases domains.find? (·.name = name) <;> rfl
  | reset name orZero =>
    rw [resolve, resolve, ClockDomain.find?_renumber]
    cases domains.find? (·.name = name) with
    | none => rfl
    | some cd =>
      obtain ⟨_, _, rst, _⟩ := cd
      cases rst with
      | some rst => rfl
      | none => cases orZero <;> rfl

@[simp] theorem DomainRef.fault?_renumber (domains : List ClockDomain) (d : DomainRef) :
    d.fault? (domains.map (ClockDomain.renumber r)) = d.fault? domains := by
  rw [fault?, fault?, resolve_renumber]
  cases d.resolve domains <;> rfl

theorem Expr.resolved_renumber (domains : List ClockDomain) (e : Expr) :
    (e.renumber r).resolved (domains.map (ClockDomain.renumber r)) =
      (e.resolved domains).renumber r := by
  rw [resolved, resolved, ← bindRefs_renumber]
  congr 1
  funext d
  rw [DomainRef.resolve_renumber]
  cases d.resolve domains <;> rfl

theorem Expr.dangling?_renumber (domains : List ClockDomain) (es : List Expr) :
    dangling? (domains.map (ClockDomain.renumber r)) (es.map (renumber r)) =
      dangling? domains es := by
  simp only [dangling?, List.flatMap_map, refs_renumber, DomainRef.fault?_renumber]

namespace Netlist

theorem mapExprs_renumber [r.Increasing] {f f' : Expr → Expr}
    (along : ∀ e, f' (e.renumber r) = (f e).renumber r) (n : Netlist) :
    (n.renumber r).mapExprs f' = (n.mapExprs f).renumber r := by
  have stmts : ∀ ss, Stmt.mapExprsOf f' (Stmt.renumberOf r ss) =
      Stmt.renumberOf r (Stmt.mapExprsOf f ss) := by
    intro ss
    rw [Stmt.mapExprsOf_trans ss fun e _ => along e, ← Stmt.mapExprsOf_trans ss fun _ _ => rfl]
  simp only [mapExprs, renumber, stmts]
  congr 1
  · apply OrdMap.ext_entries
    simp only [OrdMap.map, OrdMap.mapWithKey, List.map_map, Function.comp_def, stmts]
  · apply OrdMap.ext_entries
    rw [OrdMap.entries_rekey CellId.keeps_renumber]
    simp only [OrdMap.map, OrdMap.mapWithKey, OrdMap.entries_rekey CellId.keeps_renumber,
      List.map_map, Function.comp_def, Cell.mapExprs_renumber along]

theorem resolve_renumber [r.Increasing] (n : Netlist) :
    (n.renumber r).resolve = n.resolve.map (renumber r) := by
  have values : Stmt.exprsOf (n.renumber r).stmts
        ++ (n.renumber r).cells.values.flatMap (·.kind.exprs) =
      (Stmt.exprsOf n.stmts ++ n.cells.values.flatMap (·.kind.exprs)).map (Expr.renumber r) := by
    rw [exprs_renumber, values_cells_renumber, List.map_append, List.flatMap_map, List.map_flatMap]
    simp only [Cell.renumber, Cell.Kind.exprs_renumber]
  simp only [resolve, values]
  rw [show (n.renumber r).domains = n.domains.map (ClockDomain.renumber r) from rfl,
    Expr.dangling?_renumber]
  split
  · rfl
  · exact congrArg Except.ok (mapExprs_renumber (Expr.resolved_renumber n.domains) n)

end Netlist

/-! ### Checks and warnings -/

namespace Conversion

theorem strayFault?_renumber (ss : List Stmt) (place : String) :
    strayFault? (Stmt.renumberOf r ss) place = strayFault? ss place := by
  rw [strayFault?, strayFault?, Stmt.sugarOf?_mapExprsOf, Option.map_map]
  simp only [Function.comp_def, Stmt.kind_mapExprs]

@[simp] theorem checkStrays_renumber (n : Netlist) :
    checkStrays (n.renumber r) = checkStrays n := by
  have comb : (n.renumber r).comb = Stmt.renumberOf r n.comb := rfl
  simp only [checkStrays, Netlist.entries_sync_renumber, comb, List.findSome?_map,
    Function.comp_def, strayFault?_renumber]

@[simp] theorem checkValues_renumber [r.Increasing] (n : Netlist) :
    checkValues (n.renumber r) = checkValues n := by
  have values : (Stmt.exprsOf (n.renumber r).stmts
        ++ (n.renumber r).cells.values.flatMap fun c => c.ports.map (·.value)) =
      (Stmt.exprsOf n.stmts ++ n.cells.values.flatMap fun c => c.ports.map (·.value)).map
        (Expr.renumber r) := by
    simp only [Netlist.exprs_renumber, Netlist.values_cells_renumber, List.flatMap_map,
      List.map_append, List.map_flatMap, Cell.ports_renumber, List.map_map, Function.comp_def,
      Cell.Port.renumber]
  simp only [checkValues, values, List.findSome?_map, Function.comp_def, Expr.fault?_renumber]

@[simp] theorem undeclared_renumber [r.Increasing] (n : Netlist) :
    undeclared (n.renumber r) = undeclared n := by
  rw [undeclared, undeclared, Netlist.used_renumber, Netlist.declared_renumber]

@[simp] theorem unusedWarnings_renumber [r.Increasing] (n : Netlist) :
    unusedWarnings (n.renumber r) = unusedWarnings n := by
  rw [unusedWarnings, unusedWarnings, Netlist.used_renumber, Netlist.name_domains_renumber]

/-! ### Ports -/

theorem pads_renumber [r.Increasing] (n : Netlist) :
    pads (n.renumber r) = (pads n).image (Signal.renumber r) := by
  rw [pads, pads, ← OrdSet.ofList_map Signal.keeps_renumber, Netlist.values_cells_renumber]
  simp only [List.flatMap_map, List.map_flatMap, Cell.ports_renumber, List.filter_map,
    Function.comp_def, Cell.Port.renumber, Expr.drives_renumber]
  rfl

theorem directionOf_renumber [r.Increasing] (pads driven : OrdSet Signal) (s : Signal) :
    directionOf (pads.image (Signal.renumber r)) (driven.image (Signal.renumber r)) (s.renumber r) =
      directionOf pads driven s := by
  simp only [directionOf, OrdSet.mem_image Signal.keeps_renumber]

end Conversion

/-- The same port under another number. -/
def Verilog.Port.renumber (r : Numbering) (p : Verilog.Port) : Verilog.Port :=
  { p with signal := p.signal.renumber r }

theorem Verilog.Port.signals_renumber (ports : List Verilog.Port) :
    (ports.map (renumber r)).map (·.signal) = (ports.map (·.signal)).map (Signal.renumber r) := by
  rw [List.map_map, List.map_map]
  rfl

theorem eraseDups_map {α β : Type} [DecidableEq α] [DecidableEq β] {f : α → β}
    (inj : Function.Injective f) (xs : List α) : (xs.map f).eraseDups = xs.eraseDups.map f := by
  induction h : xs.length using Nat.strong_induction_on generalizing xs with
  | _ k ih =>
    cases xs with
    | nil => rfl
    | cons x xs =>
      have shorter : (xs.filter fun y => !y == x).length < k := by
        rw [← h, List.length_cons]
        exact Nat.lt_succ_of_le (List.length_filter_le _ _)
      have rest := ih _ shorter (xs.filter fun y => !y == x) rfl
      rw [List.map_cons, List.eraseDups_cons, List.eraseDups_cons, List.map_cons, ← rest,
        List.filter_map]
      simp only [Function.comp_def, beq_eq_decide, inj.eq_iff]

namespace Conversion

theorem ports_renumber [r.Increasing] (n : Netlist) (ios : List Signal) :
    ports (n.renumber r) (ios.map (Signal.renumber r)) =
      (ports n ios).map (Verilog.Port.renumber r) := by
  have inj : Function.Injective (Signal.renumber r) := Signal.renumber_injective
  have signals : (n.renumber r).domains.flatMap ClockDomain.signals =
      (n.domains.flatMap ClockDomain.signals).map (Signal.renumber r) := by
    rw [Netlist.renumber, List.flatMap_map, List.map_flatMap]
    simp only [ClockDomain.signals_renumber]
  simp only [ports, Netlist.driven_renumber, pads_renumber, signals, eraseDups_map inj,
    List.filter_map, List.map_append, List.map_map, Function.comp_def, directionOf_renumber,
    OrdSet.mem_image Signal.keeps_renumber, List.mem_map_of_injective inj]
  rfl

theorem readSignals_renumber [r.Increasing] (n : Netlist) :
    readSignals (n.renumber r) = (readSignals n).image (Signal.renumber r) := by
  rw [readSignals, readSignals, ← OrdSet.ofList_map Signal.keeps_renumber, Netlist.stmts_renumber,
    Stmt.sourcesOf_renumberOf, Netlist.values_cells_renumber, List.map_append]
  simp only [List.flatMap_map, List.map_flatMap, Cell.ports_renumber, List.filter_map,
    Function.comp_def, Cell.Port.renumber, Expr.mentions_renumber]
  rfl

@[simp] theorem undrivenWarnings_renumber [r.Increasing] (n : Netlist) (ports : List Verilog.Port) :
    undrivenWarnings (n.renumber r) (ports.map (Verilog.Port.renumber r)) =
      undrivenWarnings n ports := by
  have inj : Function.Injective (Signal.renumber r) := Signal.renumber_injective
  have listed : ∀ s : Signal, s.renumber r ∈ (ports.map (Verilog.Port.renumber r)).map (·.signal) ↔
      s ∈ ports.map (·.signal) := by
    intro s
    rw [Verilog.Port.signals_renumber, List.mem_map_of_injective inj]
  simp only [undrivenWarnings, readSignals_renumber, Netlist.driven_renumber,
    OrdSet.toList_image Signal.keeps_renumber, List.filter_map]
  rw [List.map_map]
  simp only [Function.comp_def, OrdSet.mem_image Signal.keeps_renumber, listed,
    Signal.name_renumber]

theorem losesOnlyCarry_renumber (rhs : Expr) (width : Nat) :
    losesOnlyCarry (rhs.renumber r) width = losesOnlyCarry rhs width := by
  cases rhs with
  | binary op a b => cases op <;> simp only [Expr.renumber, losesOnlyCarry, Expr.width_renumber]
  | _ => rfl

theorem truncation?_renumber (s : Stmt) :
    truncation? (s.mapExprs (Expr.renumber r)) = truncation? s := by
  cases s with
  | assign lhs rhs =>
    simp only [Stmt.mapExprs, truncation?, Expr.width_renumber, Expr.text_renumber,
      losesOnlyCarry_renumber]
  | branch | select | nextState | nextValue => rfl

@[simp] theorem truncationWarnings_renumber (n : Netlist) :
    truncationWarnings (n.renumber r) = truncationWarnings n := by
  simp only [truncationWarnings, Netlist.stmts_renumber, Stmt.leavesOf_mapExprsOf,
    List.filterMap_map, Function.comp_def, truncation?_renumber]

end Conversion

end Gateware
