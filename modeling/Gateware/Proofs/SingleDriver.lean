import Gateware.Proofs.Settling

/-!
# Signals driven under two names

A reset can be assigned as a signal and by the name of its domain. The driver check sees only the
first spelling, so what it promises depends on whether references are resolved before it runs.

## Main results

`checkDrivers_ok_iff`: the check accepts exactly the netlists whose targets can be driven and in
which no two parts drive one signal.

`start_drivers`: a simulation starts only on netlists with one driver for every signal as they are
written. Once references are resolved, a signal has two drivers exactly if one part assigns it by
the name of a domain and another part drives it too.

## Proof strategy

The check enters parts one after the other: the combinational statements, the clocked statements
domain by domain, the cells. Entering fails on a bad target or on a signal entered by another part,
so a run of it over a list of parts tells whether they are pairwise apart.
-/
namespace Gateware

/-! ### References in targets -/

namespace Expr

theorem mem_drives_bindRefs (f : DomainRef → Expr) (x : Signal) (t : Expr) :
    x ∈ (t.bindRefs f).drives ↔ x ∈ t.drives ∨ ∃ r ∈ t.drivenRefs, x ∈ (f r).drives := by
  induction t with
  | slice _ _ _ ih => exact ih
  | concat ps ih | mux _ ps _ ih =>
    simp only [bindRefs, drives, drivenRefs, drivesOf_eq, drivenRefsOf_eq, bindRefsOf_eq_map,
      List.mem_flatMap, List.mem_map]
    grind
  | _ => simp [bindRefs, drives, drivenRefs]

/-- A resolved target drives what it drove before and the signals that its references stand for. -/
theorem mem_drives_resolved (domains : List ClockDomain) (x : Signal) (t : Expr) :
    x ∈ (t.resolved domains).drives ↔
      x ∈ t.drives ∨ ∃ r ∈ t.drivenRefs, r.resolve domains = .ok (.signal x) := by
  unfold resolved
  rw [mem_drives_bindRefs]
  refine or_congr Iff.rfl (exists_congr fun r => and_congr Iff.rfl ?_)
  -- A reference stands for a signal, for a zero, or for nothing; the last two drive nothing.
  cases h : r.resolve domains with
  | error fault => simp [sized, drives]
  | ok e =>
    rcases DomainRef.resolve_ok h with ⟨s, rfl⟩ | rfl
    · simp [drives, eq_comm]
    · simp [sized, drives]

end Expr

namespace Netlist

/-! ### Parts and what they drive -/

/-- A part of a netlist that drives signals. -/
inductive Part
  | comb
  | sync (domain : String)
  | cell (id : CellId)
deriving DecidableEq

namespace Part

/-- The statements of a part. -/
def stmts (n : Netlist) : Part → List Stmt
  | comb => n.comb
  | sync domain => n.sync.getD domain []
  | cell _ => []

/-- The signals that a part drives. -/
def drives (n : Netlist) : Part → OrdSet Signal
  | cell id => (n.cells.get? id).elim ∅ cellTargets
  | part => Stmt.assigned (part.stmts n)

/-- Whether a part assigns a signal by the name of a domain. -/
def DrivesByName (n : Netlist) (p : Part) (s : Signal) : Prop :=
  ∃ t ∈ Stmt.targetsOf (p.stmts n), ∃ r ∈ t.drivenRefs, r.resolve n.domains = .ok (.signal s)

/-- What the driver check calls a part. -/
def driver (n : Netlist) : Part → Driver
  | comb => .comb
  | sync domain => .sync domain
  | cell id => .cell ((n.cells.get? id).elim "" Cell.describe)

end Part

/-- No two parts drive one signal. -/
def OneDriver (n : Netlist) : Prop :=
  ∀ (s : Signal) (p q : Part), s ∈ p.drives n → s ∈ q.drives n → p = q

/-- The parts of a netlist in the order they are checked. -/
def parts (n : Netlist) : List Part :=
  .comb :: (n.sync.entries.map (fun e => .sync e.1) ++ n.cells.entries.map (fun e => .cell e.1))

theorem nodup_parts (n : Netlist) : n.parts.Nodup := by
  have sync : (n.sync.entries.map (fun e => Part.sync e.1)).Nodup := by
    refine n.sync.increasing.nodup.map_on fun a ha b hb same => ?_
    exact n.sync.increasing.eq_of_key_eq ha hb (Part.sync.inj same)
  have cells : (n.cells.entries.map (fun e => Part.cell e.1)).Nodup := by
    refine n.cells.increasing.nodup.map_on fun a ha b hb same => ?_
    exact n.cells.increasing.eq_of_key_eq ha hb (Part.cell.inj same)
  simp only [parts, List.nodup_cons, List.nodup_append, List.mem_append, List.mem_map]
  refine ⟨by simp, sync, cells, ?_⟩
  rintro _ ⟨e, -, rfl⟩ _ ⟨c, -, rfl⟩ same
  cases same

theorem mem_parts {n : Netlist} {p : Part} {s : Signal} (h : s ∈ p.drives n) : p ∈ n.parts := by
  cases p with
  | comb => simp [parts]
  | sync domain =>
    cases found : n.sync.get? domain with
    | none =>
      simp [Part.drives, Part.stmts, OrdMap.getD, found, Stmt.assigned, Stmt.targetsOf] at h
    | some ss =>
      have listed := OrdMap.get?_eq_some_iff.mp found
      simpa [parts] using ⟨ss, listed⟩
  | cell id =>
    cases found : n.cells.get? id with
    | none => simp [Part.drives, found] at h
    | some c =>
      have listed := OrdMap.get?_eq_some_iff.mp found
      simpa [parts] using ⟨c, listed⟩

theorem oneDriver_iff_pairwise {n : Netlist} :
    n.OneDriver ↔ n.parts.Pairwise fun p q => ∀ s ∈ p.drives n, s ∉ q.drives n := by
  constructor
  · intro one
    refine n.nodup_parts.imp fun {p q} differ s hp hq => ?_
    exact differ (one s p q hp hq)
  · intro apart s p q hp hq
    by_contra differ
    have symm : Std.Symm fun p q : Part => ∀ s ∈ p.drives n, s ∉ q.drives n :=
      ⟨fun p q h s hq hp => h s hp hq⟩
    exact apart.forall (mem_parts hp) (mem_parts hq) differ s hp hq

/-! ### The check as a run over parts -/

/-- The first target of a part that cannot be driven. -/
def Part.fault? (n : Netlist) (p : Part) : Option Fault := Stmt.targetFault? (p.stmts n)

/-- Enter a part as the driver of its signals. -/
def enter (n : Netlist) (owners : OrdMap Signal Driver) (p : Part) :
    Except Fault (OrdMap Signal Driver) :=
  (p.fault? n).elim ((p.drives n).toList.foldlM (claim (p.driver n)) owners) .error

theorem foldlM_enter {n : Netlist} {α : Type} {g : α → Part}
    {f : OrdMap Signal Driver → α → Except Fault (OrdMap Signal Driver)} {xs : List α}
    (each : ∀ x ∈ xs, ∀ owners, f owners x = enter n owners (g x)) (owners : OrdMap Signal Driver) :
    xs.foldlM f owners = (xs.map g).foldlM (enter n) owners := by
  induction xs generalizing owners with
  | nil => rfl
  | cons x xs ih =>
    rw [List.map_cons, List.foldlM_cons, List.foldlM_cons, each x List.mem_cons_self]
    exact congrArg _ (funext (ih fun y hy => each y (List.mem_cons_of_mem _ hy)))

theorem claimStmts_eq_enter {n : Netlist} {p : Part} {ss : List Stmt}
    (owners : OrdMap Signal Driver) (stmts : p.stmts n = ss)
    (drives : p.drives n = Stmt.assigned ss) :
    claimStmts (p.driver n) owners ss = enter n owners p := by
  rw [claimStmts, enter, Part.fault?, stmts, drives]
  cases Stmt.targetFault? ss <;> rfl

/-- Finding drivers enters the parts one after the other. -/
theorem drivers_eq (n : Netlist) : n.drivers = n.parts.foldlM (enter n) ∅ := by
  have sync : ∀ e ∈ n.sync.entries, ∀ owners,
      claimStmts (.sync e.1) owners e.2 = enter n owners (.sync e.1) := by
    intro e he owners
    have listed : n.sync.getD e.1 [] = e.2 := by
      rw [OrdMap.getD, OrdMap.get?_eq_some_iff.mpr he, Option.getD_some]
    exact claimStmts_eq_enter (p := .sync e.1) owners listed (congrArg Stmt.assigned listed)
  -- A cell has no statements, so it has no bad target either.
  have cells : ∀ e ∈ n.cells.entries, ∀ owners,
      (cellTargets e.2).toList.foldlM (claim (.cell e.2.describe)) owners =
        enter n owners (.cell e.1) := by
    intro e he owners
    simp [enter, Part.fault?, Part.stmts, Part.drives, Part.driver,
      OrdMap.get?_eq_some_iff.mpr he, Stmt.targetFault?, Stmt.targetsOf]
  have comb : claimStmts .comb ∅ n.comb = enter n ∅ .comb :=
    claimStmts_eq_enter (p := .comb) ∅ rfl rfl
  unfold drivers parts
  rw [List.foldlM_cons, comb]
  refine congrArg _ (funext fun owners => ?_)
  rw [List.foldlM_append, foldlM_enter sync]
  refine congrArg _ (funext fun owners => ?_)
  rw [OrdMap.values, List.foldlM_map]
  exact foldlM_enter cells owners

/-- Signals without a driver can all be entered. -/
theorem claims_free (who : Driver) {xs : List Signal} {owners : OrdMap Signal Driver}
    (distinct : xs.Nodup) (free : ∀ s ∈ xs, owners.get? s = none) :
    ∃ after, xs.foldlM (claim who) owners = .ok after := by
  induction xs generalizing owners with
  | nil => exact ⟨owners, rfl⟩
  | cons x xs ih =>
    obtain ⟨new, distinct⟩ := List.nodup_cons.mp distinct
    obtain ⟨here, rest⟩ := List.forall_mem_cons.mp free
    have first : claim who owners x = .ok (owners.insert x who) := by
      simp [claim, here]
    rw [List.foldlM_cons, first]
    refine ih distinct fun s hs => ?_
    have other : s ≠ x := by
      rintro rfl
      exact new hs
    rw [OrdMap.get?_insert, if_neg other]
    exact rest s hs

/-- Parts that are apart from each other and from what is entered can all be entered, unless one of
them has a target that cannot be driven. -/
theorem enter_apart {n : Netlist} {ps : List Part} {owners : OrdMap Signal Driver}
    (apart : ps.Pairwise fun p q => ∀ s ∈ p.drives n, s ∉ q.drives n)
    (free : ∀ p ∈ ps, ∀ s ∈ p.drives n, owners.get? s = none) :
    (ps.findSome? (Part.fault? n)).elim (∃ after, ps.foldlM (enter n) owners = .ok after)
      fun fault => ps.foldlM (enter n) owners = .error fault := by
  induction ps generalizing owners with
  | nil => exact ⟨owners, rfl⟩
  | cons p ps ih =>
    obtain ⟨head, tail⟩ := List.pairwise_cons.mp apart
    obtain ⟨here, rest⟩ := List.forall_mem_cons.mp free
    rw [List.findSome?_cons, List.foldlM_cons]
    cases fault : p.fault? n with
    | some f =>
      have first : enter n owners p = .error f := by rw [enter, fault, Option.elim_some]
      rw [first]
      rfl
    | none =>
      obtain ⟨next, entered⟩ :=
        claims_free (p.driver n) (Ordered.Increasing.nodup (p.drives n).increasing) here
      have first : enter n owners p = .ok next := by rw [enter, fault, Option.elim_none, entered]
      rw [first]
      refine ih tail fun q hq s hs => ?_
      have other : s ∉ (p.drives n).toList := fun mine => head q hq s mine hs
      rw [(claims_ok entered).2, if_neg other]
      exact rest q hq s hs

/-- Parts that are entered have targets that can be driven and are apart from each other and from
what was entered before, drivers that share apart. -/
theorem enter_ok {n : Netlist} {ps : List Part} {owners after : OrdMap Signal Driver}
    (distinct : ps.Pairwise fun p q => p.driver n = q.driver n → (q.driver n).shares = false)
    (h : ps.foldlM (enter n) owners = .ok after) :
    ps.findSome? (Part.fault? n) = none ∧
      ps.Pairwise (fun p q => ∀ s ∈ p.drives n, s ∉ q.drives n) ∧
      ∀ p ∈ ps, ∀ s ∈ p.drives n, owners.get? s = none ∨
        owners.get? s = some (p.driver n) ∧ (p.driver n).shares = true := by
  induction ps generalizing owners with
  | nil => simp
  | cons p ps ih =>
    obtain ⟨other, distinct⟩ := List.pairwise_cons.mp distinct
    rw [List.foldlM_cons] at h
    obtain ⟨next, first, rest⟩ := bind_eq_ok.mp h
    cases fault : p.fault? n with
    | some f =>
      rw [enter, fault, Option.elim_some] at first
      cases first
    | none =>
      rw [enter, fault, Option.elim_none] at first
      obtain ⟨free, entered⟩ := claims_ok first
      obtain ⟨faultless, apart, later⟩ := ih distinct rest
      -- What the head entered belongs to the head, whose name no later part may share.
      have alone : ∀ q ∈ ps, ∀ s ∈ q.drives n, s ∉ p.drives n := by
        intro q hq s hs mine
        rcases later q hq s hs with none | ⟨same, shares⟩
        · rw [entered, if_pos (OrdSet.mem_toList.mpr mine)] at none
          cases none
        · rw [entered, if_pos (OrdSet.mem_toList.mpr mine)] at same
          have := other q hq (Option.some.inj same)
          rw [this] at shares
          cases shares
      refine ⟨by rw [List.findSome?_cons, fault]; exact faultless,
        List.pairwise_cons.mpr ⟨fun q hq s mine hs => alone q hq s hs mine, apart⟩, ?_⟩
      intro q hq s hs
      rcases List.mem_cons.mp hq with rfl | hq
      · exact free s hs
      · have old := later q hq s hs
        have other : s ∉ (p.drives n).toList := alone q hq s hs
        rwa [entered, if_neg other] at old

theorem parts_distinct (n : Netlist) :
    n.parts.Pairwise fun p q => p.driver n = q.driver n → (q.driver n).shares = false := by
  refine n.nodup_parts.imp fun {p q} differ same => ?_
  cases p with
  | comb =>
    cases q with
    | comb => exact absurd rfl differ
    | sync | cell => cases same
  | sync d =>
    cases q with
    | sync e => exact absurd (congrArg Part.sync (Driver.sync.inj same)) differ
    | comb | cell => cases same
  | cell i =>
    cases q with
    | cell j => rfl
    | comb | sync => cases same

theorem fault?_parts_eq_none {n : Netlist} :
    n.parts.findSome? (Part.fault? n) = none ↔
      ∀ p : Part, ∀ t ∈ Stmt.targetsOf (p.stmts n), t.isTarget = true := by
  simp only [List.findSome?_eq_none_iff, Part.fault?, Stmt.targetFault?_eq_none_iff]
  constructor
  · intro h p t ht
    cases p with
    | comb => exact h .comb (by simp [parts]) t ht
    | cell id => cases ht
    | sync domain =>
      cases found : n.sync.get? domain with
      | none => simp [Part.stmts, OrdMap.getD, found, Stmt.targetsOf] at ht
      | some ss =>
        have listed := OrdMap.get?_eq_some_iff.mp found
        exact h (.sync domain) (by simpa [parts] using ⟨ss, listed⟩) t ht
  · exact fun h p _ => h p

/-- The driver check accepts exactly the netlists whose targets can be driven and in which every
signal has one driver. -/
theorem checkDrivers_ok_iff {n : Netlist} :
    n.checkDrivers = .ok () ↔
      (∀ p : Part, ∀ t ∈ Stmt.targetsOf (p.stmts n), t.isTarget = true) ∧ n.OneDriver := by
  rw [checkDrivers, drivers_eq, oneDriver_iff_pairwise, ← fault?_parts_eq_none]
  constructor
  · intro h
    cases entered : n.parts.foldlM (enter n) ∅ with
    | error f =>
      rw [entered] at h
      cases h
    | ok after =>
      obtain ⟨faultless, apart, -⟩ := enter_ok n.parts_distinct entered
      exact ⟨faultless, apart⟩
  · rintro ⟨faultless, apart⟩
    have entered := enter_apart apart fun p _ s _ => OrdMap.get?_empty s
    rw [faultless] at entered
    obtain ⟨after, entered⟩ := entered
    rw [entered]
    rfl

/-- A conflict is reported only where a signal has two drivers. -/
theorem not_oneDriver_of_conflict {n : Netlist} {s first second : String}
    (h : n.checkDrivers = .error (.driverConflict s first second)) : ¬ n.OneDriver := by
  intro one
  have entered := enter_apart (oneDriver_iff_pairwise.mp one) fun p _ s _ => OrdMap.get?_empty s
  rw [checkDrivers, drivers_eq] at h
  cases fault : n.parts.findSome? (Part.fault? n) with
  | none =>
    rw [fault] at entered
    obtain ⟨after, entered⟩ := entered
    rw [entered] at h
    cases h
  | some f =>
    rw [fault] at entered
    rw [show n.parts.foldlM (enter n) ∅ = .error f from entered] at h
    -- The faults of targets are of another kind.
    obtain ⟨p, -, bad⟩ := List.exists_of_findSome?_eq_some fault
    obtain ⟨t, -, rfl⟩ := Option.map_eq_some_iff.mp bad
    cases h

/-! ### Resolving references -/

theorem stmts_mapExprs (f : Expr → Expr) (n : Netlist) (p : Part) :
    p.stmts (n.mapExprs f) = Stmt.mapExprsOf f (p.stmts n) := by
  cases p with
  | comb | cell => rfl
  | sync domain =>
    simp only [Part.stmts, mapExprs, OrdMap.getD, OrdMap.get?_map]
    cases n.sync.get? domain <;> rfl

/-- A part of the resolved netlist drives what it drove before and what it assigns by name. -/
theorem mem_drives_mapExprs {n : Netlist} {p : Part} {s : Signal}
    (memories : ∀ c ∈ n.cells.values, ∃ m, c.kind = .memory m) :
    s ∈ p.drives (n.mapExprs (Expr.resolved n.domains)) ↔ s ∈ p.drives n ∨ p.DrivesByName n s := by
  have stmts : ∀ ss : List Stmt,
      s ∈ Stmt.assigned (Stmt.mapExprsOf (Expr.resolved n.domains) ss) ↔ s ∈ Stmt.assigned ss ∨
        ∃ t ∈ Stmt.targetsOf ss, ∃ r ∈ t.drivenRefs, r.resolve n.domains = .ok (.signal s) := by
    intro ss
    simp only [Stmt.assigned, OrdSet.mem_ofList, Stmt.targetsOf_mapExprsOf, List.flatMap_map,
      List.mem_flatMap, Expr.mem_drives_resolved, and_or_left, exists_or]
  cases p with
  | comb => exact stmts n.comb
  | sync domain =>
    have same := n.stmts_mapExprs (Expr.resolved n.domains) (.sync domain)
    simp only [Part.drives, Part.DrivesByName, same]
    exact stmts _
  | cell id =>
    -- Memories hold no values, so resolving leaves them alone.
    have kept : (n.cells.map (Cell.mapExprs (Expr.resolved n.domains))).get? id =
        n.cells.get? id := by
      rw [OrdMap.get?_map]
      cases found : n.cells.get? id with
      | none => rfl
      | some c =>
        obtain ⟨m, kind⟩ := memories c
          (List.mem_map.mpr ⟨(id, c), OrdMap.get?_eq_some_iff.mp found, rfl⟩)
        obtain ⟨i, k⟩ := c
        cases kind
        rfl
    simp [Part.drives, Part.DrivesByName, Part.stmts, mapExprs, kept, Stmt.targetsOf]

end Netlist

namespace Simulator

open Netlist

theorem memories_of_ok {n : Netlist} {ms : List MemoryState} (h : memoriesOf n = .ok ms) :
    ∀ c ∈ n.cells.values, ∃ m, c.kind = .memory m := by
  intro c hc
  obtain ⟨i, hi, rfl⟩ := List.mem_iff_getElem.mp hc
  have related := mapM_ok_iff.mp h
  have len : i < ms.length := related.length_eq ▸ hi
  have here := List.Forall₂.get related hi len
  split at here
  next m kind => exact ⟨m, kind⟩
  next => cases here

theorem resolve_eq_of_loads {n : Netlist} {sim : Simulator} (loads : Loads n sim) :
    n.resolve = .ok (n.mapExprs (Expr.resolved n.domains)) := by
  have none : n.cells.values.flatMap (·.kind.exprs) = [] := by
    refine List.flatMap_eq_nil_iff.mpr fun c hc => ?_
    obtain ⟨m, kind⟩ := memories_of_ok loads.memories c hc
    rw [kind]
    rfl
  unfold resolve
  simp only [none, List.append_nil, loads.bound]

/-- A simulation starts only on netlists that have one driver for every signal as they are written.
After resolving, two parts drive one signal exactly if one of them does so by the name of a domain.
Only then can the driver check report a conflict in the resolved netlist. -/
theorem start_drivers (n : Netlist) (sim : Simulator) (accepted : Starts n sim) :
    ∃ resolved, n.resolve = .ok resolved ∧ n.OneDriver ∧
      (resolved.OneDriver ↔ ∀ (s : Signal) (p q : Part), p.DrivesByName n s →
        s ∈ q.drives n ∨ q.DrivesByName n s → p = q) ∧
      ∀ s first second, resolved.checkDrivers = .error (.driverConflict s first second) →
        ∃ (x : Signal) (p q : Part), p.DrivesByName n x ∧
          (x ∈ q.drives n ∨ q.DrivesByName n x) ∧ p ≠ q := by
  obtain ⟨loaded, loads, -, -⟩ := accepted
  -- The check runs on the netlist as it is written.
  have one : n.OneDriver := (checkDrivers_ok_iff.mp loads.checked).2
  have drives := fun s p => mem_drives_mapExprs (n := n) (p := p) (s := s)
    (memories_of_ok loads.memories)
  have iff : (n.mapExprs (Expr.resolved n.domains)).OneDriver ↔
      ∀ (s : Signal) (p q : Part), p.DrivesByName n s →
        s ∈ q.drives n ∨ q.DrivesByName n s → p = q := by
    simp only [OneDriver, drives]
    constructor
    · exact fun h s p q byName other => h s p q (.inr byName) other
    -- Two drivers that are both written as signals are one by the check.
    · rintro h s p q (plain | byName) (plain' | byName')
      · exact one s p q plain plain'
      · exact (h s q p byName' (.inl plain)).symm
      · exact h s p q byName (.inl plain')
      · exact h s p q byName (.inr byName')
  refine ⟨_, resolve_eq_of_loads loads, one, iff, fun s first second conflict => ?_⟩
  have two := not_oneDriver_of_conflict conflict
  rw [iff] at two
  push Not at two
  exact two

/-! ### A reset with two drivers -/

open Signal (wire)

/-- A reset that is assigned by the name of its domain, and a register of another domain. -/
def resetAnd (register : Signal) : Netlist where
  comb := [.assign (.reset "sys") (wire 4 "request" 1)]
  sync := .ofList [("io", [.assign register (wire 5 "data" 1)])]
  domains := [
    { name := "sys", clk := wire 0 "sys_clk" 1, rst := some (wire 1 "sys_rst" 1)
      asyncReset := false },
    { name := "io", clk := wire 2 "io_clk" 1, rst := some (wire 3 "io_rst" 1)
      asyncReset := false }]

/-- With a register of its own the resolved netlist has one driver for every signal; with the reset
as the register there is a conflict, and the reset is assigned by name. -/
theorem resetAnd_drivers :
    (∃ sim resolved, start (resetAnd (wire 6 "q" 1)) = .ok sim ∧
      (resetAnd (wire 6 "q" 1)).resolve = .ok resolved ∧ resolved.OneDriver ∧
      ∀ (s : Signal) (p q : Part), p.DrivesByName (resetAnd (wire 6 "q" 1)) s →
        s ∈ q.drives (resetAnd (wire 6 "q" 1)) ∨ q.DrivesByName (resetAnd (wire 6 "q" 1)) s →
        p = q) ∧
    ∃ sim, start (resetAnd (wire 1 "sys_rst" 1)) = .ok sim ∧
      (resetAnd (wire 1 "sys_rst" 1)).OneDriver ∧
      ∃ (x : Signal) (p q : Part), p.DrivesByName (resetAnd (wire 1 "sys_rst" 1)) x ∧
        (x ∈ q.drives (resetAnd (wire 1 "sys_rst" 1)) ∨
          q.DrivesByName (resetAnd (wire 1 "sys_rst" 1)) x) ∧ p ≠ q := by
  refine ⟨?_, ?_⟩
  · obtain ⟨sim, started⟩ :=
      exists_ok (by decide +kernel : (start (resetAnd (wire 6 "q" 1))).isOk = true)
    obtain ⟨resolved, found, -, iff, -⟩ := start_drivers _ _ (starts_of_start started)
    have checked : (resetAnd (wire 6 "q" 1)).resolve.bind Netlist.checkDrivers = .ok () := by
      decide +kernel
    rw [found] at checked
    have one : resolved.OneDriver := (checkDrivers_ok_iff.mp checked).2
    exact ⟨sim, resolved, started, found, one, iff.mp one⟩
  · obtain ⟨sim, started⟩ :=
      exists_ok (by decide +kernel : (start (resetAnd (wire 1 "sys_rst" 1))).isOk = true)
    obtain ⟨resolved, found, one, -, conflict⟩ := start_drivers _ _ (starts_of_start started)
    have checked : (resetAnd (wire 1 "sys_rst" 1)).resolve.bind Netlist.checkDrivers =
        .error (.driverConflict "sys_rst" "comb" "sync domain `io`") := by
      decide +kernel
    rw [found] at checked
    exact ⟨sim, started, one, conflict _ _ _ checked⟩

/-- The simulation starts although the resolved netlist has a signal with two drivers. -/
theorem reset_driven_twice :
    ∃ sim resolved, start (resetAnd (wire 1 "sys_rst" 1)) = .ok sim ∧
      (resetAnd (wire 1 "sys_rst" 1)).resolve = .ok resolved ∧
      wire 1 "sys_rst" 1 ∈ Part.comb.drives resolved ∧
      wire 1 "sys_rst" 1 ∈ (Part.sync "io").drives resolved ∧
      resolved.checkDrivers = .error (.driverConflict "sys_rst" "comb" "sync domain `io`") := by
  obtain ⟨sim, started⟩ :=
    exists_ok (by decide +kernel : (start (resetAnd (wire 1 "sys_rst" 1))).isOk = true)
  obtain ⟨resolved, found⟩ :=
    exists_ok (by decide +kernel : (resetAnd (wire 1 "sys_rst" 1)).resolve.isOk = true)
  have seen : (resetAnd (wire 1 "sys_rst" 1)).resolve.toOption.all (fun resolved =>
      wire 1 "sys_rst" 1 ∈ Part.comb.drives resolved ∧
      wire 1 "sys_rst" 1 ∈ (Part.sync "io").drives resolved ∧
      resolved.checkDrivers =
        .error (.driverConflict "sys_rst" "comb" "sync domain `io`")) = true := by
    decide +kernel
  rw [found] at seen
  exact ⟨sim, resolved, started, found, of_decide_eq_true seen⟩

end Simulator

end Gateware
