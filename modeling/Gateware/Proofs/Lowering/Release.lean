import Gateware.Lowering.Synchronizer
import Gateware.Proofs.Wires

/-!
# Reset synchronizers

The reset of a domain goes on as soon as it is requested and off on the second clock edge after the
request is gone, by two registers that the request presets.

## Main results

* `Lowering.run_resetSync`: the netlist that replaces a reset synchronizer
* `Lowering.resetSync_releases`: when the reset of the domain reads as set

## Proof strategy

The request is wired to the asynchronous reset of a domain of its own, and the second of the two
registers to the reset of the original domain. The first pass of settling brings the request to the
asynchronous reset, whose round then presets both registers or leaves them alone. From there on only
edges of the added domain change them, one after the other.
-/
namespace Gateware

/-! ### The synchronizer -/

namespace Lowering

/-- The name of the domain that is added. -/
def derivedName (r : ResetSync) : String := s!"{r.domain}_arst"

/-- The reset of the domain that is added. -/
def arrival (r : ResetSync) (base : Nat) : Signal :=
  ⟨⟨base + 1⟩, s!"{derivedName r}_rst", .unsigned 1, 0, false⟩

/-- The domain that is added; `base` is the first free identity. -/
def derived (r : ResetSync) (base : Nat) : ClockDomain where
  name := derivedName r
  clk := ⟨⟨base⟩, s!"{derivedName r}_clk", .unsigned 1, 0, false⟩
  rst := some (arrival r base)
  asyncReset := true

/-- The register that comes out of reset first. -/
def firstFlop (r : ResetSync) (base : Nat) : Signal :=
  ⟨⟨base + 2⟩, s!"{r.domain}_rst_meta", .unsigned 1, 1, false⟩

/-- The register that follows it. -/
def secondFlop (r : ResetSync) (base : Nat) : Signal :=
  ⟨⟨base + 3⟩, s!"{r.domain}_rst_sync", .unsigned 1, 1, false⟩

def flops (r : ResetSync) (base : Nat) : List Signal := [firstFlop r base, secondFlop r base]

/-- Two registers between a request and the reset of a domain. -/
def releaser (r : ResetSync) (base : Nat) : Netlist where
  comb := [
    .assign (derived r base).clk (.clock r.domain),
    .assign (arrival r base) r.asyncReset,
    .assign (.reset r.domain) (secondFlop r base)]
  sync := .ofList [(derivedName r, [
    .assign (firstFlop r base) (.int 0), .assign (secondFlop r base) (firstFlop r base)])]
  domains := [derived r base]

theorem run_resetSync {c : Cell} {r : ResetSync} (kind : c.kind = .resetSync r) (u : Supply) :
    (resetSync.lower c).run.run u =
      (.ok (releaser r u.nextSignal), { u with nextSignal := u.nextSignal + 4 }) := by
  unfold resetSync
  simp only [kind]
  rfl

section Piece

variable {r : ResetSync} {base : Nat} {domains : List ClockDomain} {d : ClockDomain} {rst : Signal}
  (declared : domains.find? (·.name = r.domain) = some d) (reset : d.rst = some rst)

theorem resetValue_flop {s : Signal} (hs : s ∈ flops r base) : s.resetValue = 1 := by
  rcases List.mem_pair.mp hs with rfl | rfl <;> rfl

theorem index_flop {s : Signal} (hs : s ∈ flops r base) : base + 2 ≤ s.id.index := by
  rcases List.mem_pair.mp hs with rfl | rfl
  · exact Nat.le_refl _
  · exact Nat.le_succ _

/-- The registers are the youngest signals of a synchronizer. -/
theorem index_logic (older : rst.id.index < base) {s : Signal}
    (hs : s = (derived r base).clk ∨ s = arrival r base ∨ s = rst) : s.id.index < base + 2 := by
  rcases hs with rfl | rfl | rfl
  · exact Nat.lt_add_of_pos_right (by decide)
  · exact Nat.lt_succ_self _
  · omega

theorem getD_sync_releaser (domain : String) : (releaser r base).sync.getD domain [] =
    if domain = derivedName r then
      [.assign (firstFlop r base) (.int 0), .assign (secondFlop r base) (firstFlop r base)]
    else [] := by
  change (OrdMap.insert ∅ (derivedName r) _).getD domain [] = _
  rw [OrdMap.getD, OrdMap.get?_insert]
  split <;> rfl

theorem writes_flops {f g : Frame} (clocked : f.clocked = true)
    (run : (Frame.execAll (Stmt.mapExprsOf (Expr.resolved domains)
      ((releaser r base).sync.getD (derivedName r) []))).run.run f = (.ok (), g)) :
    g.writes.get? (firstFlop r base) = some 0 ∧
      g.writes.get? (secondFlop r base) =
        some ((Shape.unsigned 1).wrap (f.state.value (firstFlop r base))) := by
  have differ : firstFlop r base ≠ secondFlop r base := fun same =>
    Nat.succ_ne_self _ (congrArg (·.id.index) same).symm
  rw [getD_sync_releaser, if_pos rfl] at run
  obtain ⟨f', first, rest⟩ := Frame.run_execAll_cons_ok.mp run
  obtain ⟨v, zero, rfl⟩ := Frame.run_assign_signal_ok.mp first
  obtain ⟨g', second, rest⟩ := Frame.run_execAll_cons_ok.mp rest
  obtain ⟨u, read, rfl⟩ := Frame.run_assign_signal_ok.mp second
  rw [Stmt.mapExprsOf, Frame.run_execAll_nil] at rest
  cases rest
  cases zero
  rw [Frame.seen_clocked (by exact clocked)] at read
  cases read
  constructor
  · rw [Frame.stored_writes, if_neg differ, Frame.stored_writes, if_pos rfl]
    rfl
  · rw [Frame.stored_writes, if_pos rfl]
    rfl

include declared reset

theorem mapExprsOf_comb_releaser :
    Stmt.mapExprsOf (Expr.resolved domains) (releaser r base).comb = [
      .assign (derived r base).clk d.clk,
      .assign (arrival r base) (r.asyncReset.resolved domains),
      .assign rst (secondFlop r base)] := by
  have clock : (Expr.clock r.domain).resolved domains = d.clk := by
    simp [Expr.clock, Expr.resolved, Expr.bindRefs, DomainRef.resolve, declared]
  have resets : (Expr.reset r.domain).resolved domains = rst := by
    simp [Expr.reset, Expr.resolved, Expr.bindRefs, DomainRef.resolve, declared, reset]
  simp only [releaser, Stmt.mapExprsOf, Stmt.mapExprs, clock, resets]
  rfl

/-- Logic drives the clock and the resets, clocked statements the registers. -/
theorem mem_drives_releaser {p : Netlist.Part} {s : Signal} :
    s ∈ p.drives ((releaser r base).mapExprs (Expr.resolved domains)) ↔
      p = .comb ∧ (s = (derived r base).clk ∨ s = arrival r base ∨ s = rst) ∨
        p = .sync (derivedName r) ∧ s ∈ flops r base := by
  cases p with
  | comb =>
    change s ∈ Stmt.assigned (Stmt.mapExprsOf _ (releaser r base).comb) ↔ _
    rw [mapExprsOf_comb_releaser declared reset]
    simp [Stmt.assigned, Stmt.targetsOf, Stmt.targets, Expr.drives]
  | cell id =>
    change s ∈ (∅ : OrdSet Signal) ↔ _
    simp
  | sync domain =>
    change s ∈ Stmt.assigned ((Netlist.Part.sync domain).stmts _) ↔ _
    rw [Netlist.stmts_mapExprs, Netlist.Part.stmts, getD_sync_releaser]
    by_cases same : domain = derivedName r
    · rw [if_pos same]
      simp [Stmt.mapExprsOf, Stmt.mapExprs, Expr.resolved, Expr.bindRefs, Stmt.assigned,
        Stmt.targetsOf, Stmt.targets, Expr.drives, same, flops]
    · rw [if_neg same]
      simp [Stmt.mapExprsOf, Stmt.assigned, Stmt.targetsOf, same]

theorem flop_driven {s : Signal} (hs : s ∈ flops r base) :
    s ∈ (releaser r base).drivenUnder domains :=
  Netlist.Part.mem_driven ((mem_drives_releaser declared reset).mpr (.inr ⟨rfl, hs⟩))

theorem reset_driven {s : Signal} (hs : s = arrival r base ∨ s = rst) :
    s ∈ (releaser r base).drivenUnder domains :=
  Netlist.Part.mem_driven ((mem_drives_releaser declared reset).mpr (.inl ⟨rfl, .inr hs⟩))

end Piece

end Lowering

/-! ### Wires and registers -/

namespace Simulator

open Lowering

/-- What a simulation makes of a reset synchronizer: the request is wired to the asynchronous reset
of a domain of its own, whose two registers have no other driver, and the second one is wired to the
reset to be released. -/
structure Guards (r : ResetSync) (base : Nat) (rst : Signal) (request : Expr) (sim : Simulator) :
    Prop where
  arrives : Wired sim.processes (arrival r base) request
  leaves : Wired sim.processes rst (secondFlop r base)
  registers : ∀ s ∈ flops r base, Registered sim (derivedName r) s
  presets : ∀ s ∈ flops r base, s ∈ resettable (sim.sync.getD (derivedName r) [])
  declared : derived r base ∈ sim.domains
  alone : ∀ d ∈ sim.domains, d.name = derivedName r → d = derived r base
  steady : ∀ d ∈ sim.domains, arrival r base ∉ resettable (sim.sync.getD d.name [])

namespace Guards

variable {r : ResetSync} {base : Nat} {rst : Signal} {request : Expr} {sim after : Simulator}
  (h : Guards r base rst request sim)

include h

theorem congr (same : SameDesign after sim)
    (memories : after.memories.map (·.memory) = sim.memories.map (·.memory)) :
    Guards r base rst request after := by
  refine ⟨?_, ?_, fun s hs => (h.registers s hs).congr same memories, ?_, ?_, ?_, ?_⟩
  · exact same.processes ▸ h.arrives
  · exact same.processes ▸ h.leaves
  · exact same.sync ▸ h.presets
  · exact same.domains ▸ h.declared
  · exact same.domains ▸ h.alone
  · rw [same.domains, same.sync]
    exact h.steady

theorem settle (settles : Simulator.settle.run.run sim = (.ok (), after)) :
    Guards r base rst request after := by
  rw [(run_settle_ok settles).2]
  exact h.congr ⟨rfl, rfl, rfl⟩ rfl

theorem clockEdge {domain : String} (edge : sim.clockEdge domain = .ok after) :
    Guards r base rst request after :=
  h.congr (sameDesign_clockEdge edge) (map_memory_clockEdge edge)

/-- The registers of the synchronizer after settling: what the round of resets makes of them once a
pass has brought the request to the reset. -/
theorem settles_to (settles : Simulator.settle.run.run sim = (.ok (), after)) {v : Int}
    (value : request.eval sim.peek = .ok v) {s : Signal} (hs : s ∈ flops r base) :
    ∃ σ : SimState, σ.get? (arrival r base) = some ((Shape.unsigned 1).wrap v) ∧
      σ.get? s = sim.state.get? s ∧
      after.state.get? s = (sim.domains.foldl (holdReset sim.sync) (σ, false)).1.get? s := by
  obtain ⟨ended, -⟩ := run_settle_ok settles
  obtain ⟨σ, first, rest⟩ := settled_cases ended
  obtain ⟨owns, undriven, -, -⟩ := h.registers s hs
  have kept := pass_keeps owns undriven sim.memories
  have before := kept sim.state
  rw [first] at before
  refine ⟨σ, h.arrives.pass value first, before, ?_⟩
  rcases rest with ⟨same, stays⟩ | second
  · rw [stays]
    exact congrArg (OrdMap.get? · s) same.symm
  · have again := kept (resetRound sim.sync sim.domains σ).1
    rw [second] at again
    exact again

/-- A request presets the registers. -/
theorem settle_on (settles : Simulator.settle.run.run sim = (.ok (), after))
    (value : request.eval sim.peek = .ok 1) {s : Signal} (hs : s ∈ flops r base) :
    after.peek s = 1 := by
  obtain ⟨σ, arrived, -, ended⟩ := h.settles_to settles value hs
  refine (SimState.value_of_get? ?_).trans (resetValue_flop hs)
  rw [ended]
  exact foldl_holdReset_on h.steady h.declared rfl rfl (h.presets s hs) arrived (by decide)

/-- Without a request the registers stay. -/
theorem settle_off (settles : Simulator.settle.run.run sim = (.ok (), after))
    (value : request.eval sim.peek = .ok 0) {s : Signal} (hs : s ∈ flops r base) :
    after.peek s = sim.peek s := by
  obtain ⟨σ, arrived, before, ended⟩ := h.settles_to settles value hs
  have only : ∀ d ∈ sim.domains, s ∈ resettable (sim.sync.getD d.name []) →
      d.rst = none ∨ d.rst = some (arrival r base) := by
    intro d hd acts
    rw [h.alone d hd ((h.registers s hs).mem_resettable acts).1]
    exact .inr rfl
  refine value_congr ?_
  rw [ended, foldl_holdReset_off h.steady only arrived, before]

theorem inReset_off (low : sim.peek (arrival r base) = 0) :
    sim.inReset (derivedName r) = false := by
  rw [inReset]
  cases found : sim.domains.find? (·.name = derivedName r) with
  | none => rfl
  | some d =>
    have name : d.name = derivedName r := by simpa using List.find?_some found
    rw [h.alone d (List.mem_of_find?_eq_some found) name]
    simp [derived, low]

end Guards

section Placed

variable {r : ResetSync} {base : Nat} {n : Netlist} {d : ClockDomain} {rst : Signal}
  (placed : (releaser r base).Placed n)
  (declared : n.domains.find? (·.name = r.domain) = some d) (reset : d.rst = some rst)

include placed declared reset

/-- The logic of the synchronizer amid that of the netlist, which assigns neither of the resets. -/
theorem exists_logic :
    ∃ front back, n.logic = front ++ [.assign (derived r base).clk d.clk,
        .assign (arrival r base) (r.asyncReset.resolved n.domains),
        .assign rst (secondFlop r base)] ++ back ∧
      ∀ s, s = arrival r base ∨ s = rst → s ∉ Stmt.assigned front ∧ s ∉ Stmt.assigned back := by
  obtain ⟨front, back, split, apart⟩ := placed.stmts .comb
  refine ⟨front, back, ?_, fun s hs => apart s (reset_driven declared reset hs)⟩
  rw [← mapExprsOf_comb_releaser declared reset]
  exact split

variable (older : rst.id.index < base)

include older

/-- Only the clocked statements of the added domain drive the registers. -/
theorem part_of_flop {s : Signal} (hs : s ∈ flops r base) {p : Netlist.Part}
    (drives : s ∈ p.drives (n.mapExprs (Expr.resolved n.domains))) : p = .sync (derivedName r) := by
  have own := placed.part (flop_driven declared reset hs) drives
  rcases (mem_drives_releaser declared reset).mp own with ⟨-, logic⟩ | ⟨same, -⟩
  · exact absurd (index_flop hs) (Nat.not_le_of_lt (index_logic older logic))
  · exact same

/-- Only logic drives the two resets. -/
theorem part_of_reset {s : Signal} (hs : s = arrival r base ∨ s = rst) {p : Netlist.Part}
    (drives : s ∈ p.drives (n.mapExprs (Expr.resolved n.domains))) : p = .comb := by
  have own := placed.part (reset_driven declared reset hs) drives
  rcases (mem_drives_releaser declared reset).mp own with ⟨same, -⟩ | ⟨-, flop⟩
  · exact same
  · exact absurd (index_flop flop) (Nat.not_le_of_lt (index_logic older (.inr hs)))

variable {sim : Simulator} (reached : Reachable n sim)

include reached

theorem Reachable.arrives (external : n.External r.asyncReset) :
    Wired sim.processes (arrival r base) (r.asyncReset.resolved n.domains) := by
  obtain ⟨first, loads, same⟩ := reached.sameDesign
  have undriven := fun s hs => (reached.untouched (external s hs) "").undriven
  rw [same.processes] at undriven ⊢
  obtain ⟨front, back, split, apart⟩ := exists_logic placed declared reset
  obtain ⟨before, after⟩ := apart _ (.inl rfl)
  have clock : arrival r base ≠ (derived r base).clk := fun same =>
    Nat.succ_ne_self base (congrArg (·.id.index) same)
  have distinct : arrival r base ≠ rst := by
    rintro rfl
    simp [arrival] at older
  have logic : n.logic = (front ++ [.assign (derived r base).clk d.clk]) ++
      .assign (arrival r base) (r.asyncReset.resolved n.domains) ::
        ([.assign rst (secondFlop r base)] ++ back) := by
    simp only [split, List.append_assoc, List.cons_append, List.nil_append]
  refine loads.wired logic ?_ ?_
    (fun p drives => part_of_reset placed declared reset older (.inl rfl) drives) undriven
  · rw [Stmt.mem_assigned_append, assigned_wire]
    exact not_or.mpr ⟨before, clock⟩
  · rw [Stmt.mem_assigned_append, assigned_wire]
    exact not_or.mpr ⟨distinct, after⟩

theorem Reachable.leaves : Wired sim.processes rst (secondFlop r base) := by
  obtain ⟨first, loads, same⟩ := reached.sameDesign
  have second : Registered sim (derivedName r) (secondFlop r base) :=
    reached.registered_of_part fun p =>
      part_of_flop placed declared reset older (.tail _ (.head _))
  have undriven := second.undriven
  rw [same.processes] at undriven ⊢
  obtain ⟨front, back, split, apart⟩ := exists_logic placed declared reset
  obtain ⟨before, after⟩ := apart _ (.inr rfl)
  have logic : n.logic = (front ++ [.assign (derived r base).clk d.clk] ++
      [.assign (arrival r base) (r.asyncReset.resolved n.domains)]) ++
        .assign rst (secondFlop r base) :: back := by
    simp only [split, List.append_assoc, List.cons_append, List.nil_append]
  have clock : rst ≠ (derived r base).clk := by
    rintro rfl
    exact Nat.lt_irrefl _ older
  have distinct : rst ≠ arrival r base := by
    rintro rfl
    simp [arrival] at older
  refine loads.wired logic ?_ after
    (fun p drives => part_of_reset placed declared reset older (.inr rfl) drives) fun s hs => ?_
  · rw [Stmt.mem_assigned_append, Stmt.mem_assigned_append, assigned_wire, assigned_wire]
    exact not_or.mpr ⟨not_or.mpr ⟨before, clock⟩, distinct⟩
  · cases List.mem_singleton.mp hs
    exact undriven

theorem Reachable.guards (external : n.External r.asyncReset)
    (alone : ∀ d ∈ n.domains, d.name = derivedName r → d ∈ (releaser r base).domains) :
    Guards r base rst (r.asyncReset.resolved n.domains) sim := by
  obtain ⟨first, loads, same⟩ := reached.sameDesign
  have domains : sim.domains = n.domains := by rw [same.domains, loads.domains]
  have drives : ∀ domain, Stmt.assigned (sim.sync.getD domain []) =
      (Netlist.Part.sync domain).drives (n.mapExprs (Expr.resolved n.domains)) := by
    intro domain
    rw [loads.drives_sync, same.sync]
  refine ⟨reached.arrives placed declared reset older external,
    reached.leaves placed declared reset older, fun s hs => ?_, fun s hs => ?_, ?_, ?_, ?_⟩
  · exact reached.registered_of_part fun p => part_of_flop placed declared reset older hs
  · refine List.mem_filter.mpr ⟨OrdSet.mem_toList.mpr ?_, ?_⟩
    · have own : s ∈ (Netlist.Part.sync (derivedName r)).drives
          ((releaser r base).mapExprs (Expr.resolved n.domains)) :=
        (mem_drives_releaser declared reset).mpr (.inr ⟨rfl, hs⟩)
      rw [drives]
      refine placed.mem_drives_resolved ?_
      rw [← Netlist.stmts_mapExprs]
      exact own
    · rcases List.mem_pair.mp hs with rfl | rfl <;> rfl
  · rw [domains]
    exact placed.mem_domains (List.mem_singleton.mpr rfl)
  · intro d hd name
    exact List.mem_singleton.mp (alone d (domains ▸ hd) name)
  · intro d _ acts
    have assigned := OrdSet.mem_toList.mp (List.mem_filter.mp acts).1
    rw [drives] at assigned
    cases part_of_reset placed declared reset older (.inl rfl) assigned

/-- On an edge out of reset the first register clears, and the second one takes what it held. -/
theorem Reachable.flops_clockEdge (out : sim.inReset (derivedName r) = false) {next : Simulator}
    (edge : sim.clockEdge (derivedName r) = .ok next) :
    next.peek (firstFlop r base) = 0 ∧
      next.peek (secondFlop r base) = (Shape.unsigned 1).wrap (sim.peek (firstFlop r base)) := by
  have loads : ∀ s ∈ flops r base, _ := fun s hs => reached.loads_own placed
    (reached.registered_of_part fun _ => part_of_flop placed declared reset older hs)
    (flop_driven declared reset hs) (.inr out) edge
  constructor
  · obtain ⟨f, g, -, clocked, ran, taken⟩ := loads _ (.head _)
    exact taken _ (writes_flops clocked ran).1
  · obtain ⟨f, g, state, clocked, ran, taken⟩ := loads _ (.tail _ (.head _))
    rw [taken _ (writes_flops clocked ran).2, state]
    rfl

end Placed

/-! ### Runs -/

/-- How many edges of the added domain there were since a request was last seen, in a run that has
seen one and from then on drives no signal of the synchronizer from outside. -/
inductive Released (n : Netlist) (own : OrdSet Signal) (domain : String) (request : Expr) :
    Nat → Simulator → Prop
  | settled {sim after : Simulator} {v : Int} (before : Reachable n sim)
    (value : request.eval sim.peek = .ok v) (on : v ≠ 0)
    (settles : settle.run.run sim = (.ok (), after)) : Released n own domain request 0 after
  | ticked {sim after : Simulator} {v : Int} (other : String) (before : Reachable n sim)
    (value : request.eval sim.peek = .ok v) (on : v ≠ 0)
    (ticks : (tick other).run.run sim = (.ok (), after)) : Released n own domain request 0 after
  | poke {k : Nat} {sim : Simulator} (s : Signal) (v : Int) (outside : s ∉ own)
    (before : Released n own domain request k sim) : Released n own domain request k (sim.poke s v)
  | move {k : Nat} {sim after : Simulator} {ticked : Option String}
    (before : Released n own domain request k sim) (off : request.eval sim.peek = .ok 0)
    (step : Moves own ticked sim after) (elsewhere : ticked ≠ some domain) :
    Released n own domain request k after
  | edge {k : Nat} {sim after : Simulator} (before : Released n own domain request k sim)
    (off : request.eval sim.peek = .ok 0) (step : Moves own (some domain) sim after) :
    Released n own domain request (k + 1) after

theorem Released.reachable {n : Netlist} {own : OrdSet Signal} {domain : String} {request : Expr}
    {k : Nat} {sim : Simulator} (h : Released n own domain request k sim) : Reachable n sim := by
  induction h with
  | settled before _ _ settles => exact before.after_settle settles
  | ticked _ before _ _ ticks => exact before.after_tick ticks
  | poke s v _ _ ih => exact ih.poke s v
  | move _ _ step _ ih => exact step.reachable ih
  | edge _ _ step ih => exact step.reachable ih

/-- The registers clear one after the other, and the reset shows the second one. -/
structure Releasing (r : ResetSync) (base : Nat) (rst : Signal) (k : Nat) (sim : Simulator) :
    Prop where
  first : sim.peek (firstFlop r base) = if k = 0 then 1 else 0
  second : sim.peek (secondFlop r base) = if k < 2 then 1 else 0
  shown : sim.peek rst = rst.shape.wrap (sim.peek (secondFlop r base))

theorem Releasing.peek_reset {r : ResetSync} {base : Nat} {rst : Signal} {k : Nat} {sim : Simulator}
    (h : Releasing r base rst k sim) (fits : rst.shape.Holds 1) :
    sim.peek rst = if k < 2 then 1 else 0 := by
  rw [h.shown, h.second]
  split
  · exact Shape.wrap_eq_self_iff.mpr fits
  · exact Shape.wrap_eq_self_iff.mpr (Shape.holds_zero _)

/-- Settling with a request begins anew. -/
theorem Guards.releasing {r : ResetSync} {base : Nat} {rst : Signal} {request : Expr}
    {sim after : Simulator} (h : Guards r base rst request sim)
    (settles : Simulator.settle.run.run sim = (.ok (), after))
    (value : request.eval sim.peek = .ok 1) : Releasing r base rst 0 after :=
  ⟨h.settle_on settles value (.head _), h.settle_on settles value (.tail _ (.head _)),
    h.leaves.settle settles rfl⟩

section Run

variable {r : ResetSync} {base : Nat} {n : Netlist} {rst : Signal}
  (external : n.External r.asyncReset) {sim after : Simulator} (reached : Reachable n sim)

include external reached

theorem Reachable.request_bit (bit : r.asyncReset.shape = .unsigned 1)
    (bits : ∀ ref ∈ r.asyncReset.refs, (Expr.standsFor n.domains ref).shape = .unsigned 1) :
    ∃ v, (r.asyncReset.resolved n.domains).eval sim.peek = .ok v ∧ (v = 0 ∨ v = 1) := by
  obtain ⟨v, value, fits⟩ := reached.eval_external external bits
  rw [bit] at fits
  obtain ⟨lower, upper⟩ := Shape.holds_unsigned.mp fits
  exact ⟨v, value, by omega⟩

variable (guards : Guards r base rst (r.asyncReset.resolved n.domains) sim)

include guards

/-- The two settlings and the edge of a tick see the same request. -/
theorem Reachable.tick_guarded {domain : String}
    (ticks : (Simulator.tick domain).run.run sim = (.ok (), after)) :
    ∃ mid next, Simulator.settle.run.run sim = (.ok (), mid) ∧ mid.clockEdge domain = .ok next ∧
      Simulator.settle.run.run next = (.ok (), after) ∧
      Guards r base rst (r.asyncReset.resolved n.domains) mid ∧
      Guards r base rst (r.asyncReset.resolved n.domains) next ∧
      (r.asyncReset.resolved n.domains).eval mid.peek =
        (r.asyncReset.resolved n.domains).eval sim.peek ∧
      (r.asyncReset.resolved n.domains).eval next.peek =
        (r.asyncReset.resolved n.domains).eval sim.peek := by
  obtain ⟨mid, next, settles, edge, last⟩ := tick_ok ticks
  have first := reached.eval_settle external
  rw [settles] at first
  have guards' := guards.settle settles
  have second := (reached.after_settle settles).eval_clockEdge external edge
  exact ⟨mid, next, settles, edge, last, guards', guards'.clockEdge edge, first, second.trans first⟩

/-- While there is no request, only edges of their domain change the registers. -/
theorem Moves.keeps_flop {own : OrdSet Signal} {ticked : Option String}
    (step : Moves own ticked sim after)
    (off : (r.asyncReset.resolved n.domains).eval sim.peek = .ok 0)
    (elsewhere : ticked ≠ some (derivedName r)) {s : Signal} (hs : s ∈ flops r base)
    (mine : s ∈ own) : after.peek s = sim.peek s := by
  cases step with
  | poke t v outside => exact peek_poke_of_mem outside mine
  | settle settles => exact guards.settle_off settles off hs
  | tick domain ticks =>
    obtain ⟨mid, next, settles, edge, last, guards', loaded, -, same⟩ :=
      reached.tick_guarded external guards ticks
    have differ : derivedName r ≠ domain := fun same => elsewhere (congrArg some same.symm)
    calc after.peek s
        = next.peek s := loaded.settle_off last (same.trans off) hs
      _ = mid.peek s := value_congr ((guards'.registers s hs).clockEdge_other edge differ)
      _ = sim.peek s := guards.settle_off settles off hs

end Run

section Releasing

variable {r : ResetSync} {base : Nat} {n : Netlist} {d : ClockDomain} {rst : Signal}
  (placed : (releaser r base).Placed n) (external : n.External r.asyncReset)
  (declared : n.domains.find? (·.name = r.domain) = some d) (reset : d.rst = some rst)
  (older : rst.id.index < base)
  (alone : ∀ d ∈ n.domains, d.name = derivedName r → d ∈ (releaser r base).domains)
  {sim after : Simulator} {k : Nat}

include placed external declared reset older alone

/-- An edge without a request clears one register more. -/
theorem Releasing.edge (reached : Reachable n sim) (h : Releasing r base rst k sim)
    (off : (r.asyncReset.resolved n.domains).eval sim.peek = .ok 0)
    (ticks : (tick (derivedName r)).run.run sim = (.ok (), after)) :
    Releasing r base rst (k + 1) after := by
  have guards := reached.guards placed declared reset older external alone
  obtain ⟨mid, next, settles, edge, last, guards', loaded, same, same'⟩ :=
    reached.tick_guarded external guards ticks
  have low : mid.peek (arrival r base) = 0 := guards.arrives.settle settles (same.trans off)
  obtain ⟨first, second⟩ := (reached.after_settle settles).flops_clockEdge placed declared reset
    older (guards'.inReset_off low) edge
  have held := guards.settle_off settles off (s := firstFlop r base) (.head _)
  have stays : ∀ s ∈ flops r base, after.peek s = next.peek s := fun s hs =>
    loaded.settle_off last (same'.trans off) hs
  refine ⟨?_, ?_, loaded.leaves.settle last rfl⟩
  · rw [stays _ (.head _), first, if_neg (Nat.succ_ne_zero k)]
  · rw [stays _ (.tail _ (.head _)), second, held, h.first]
    cases k with
    | zero => rfl
    | succ k =>
      rw [if_neg (Nat.succ_ne_zero k), if_neg (by omega)]
      rfl

/-- Any other step without a request keeps both. -/
theorem Releasing.move {ticked : Option String} (reached : Reachable n sim)
    (h : Releasing r base rst k sim)
    (off : (r.asyncReset.resolved n.domains).eval sim.peek = .ok 0)
    (step : Moves ((releaser r base).drivenUnder n.domains) ticked sim after)
    (elsewhere : ticked ≠ some (derivedName r)) : Releasing r base rst k after := by
  have guards := reached.guards placed declared reset older external alone
  have own : ∀ s ∈ flops r base, s ∈ (releaser r base).drivenUnder n.domains := fun s hs =>
    flop_driven declared reset hs
  have kept : ∀ s ∈ flops r base, after.peek s = sim.peek s := fun s hs =>
    step.keeps_flop external reached guards off elsewhere hs (own s hs)
  refine ⟨?_, ?_, step.follows guards.leaves (reset_driven declared reset (.inr rfl))
    (own _ (.tail _ (.head _))) h.shown⟩
  · rw [kept _ (.head _), h.first]
  · rw [kept _ (.tail _ (.head _)), h.second]

/-- Along a run the registers show how many edges there were since a request. -/
theorem Releasing.of_released
    (one : ∀ {sim : Simulator} {v : Int}, Reachable n sim →
      (r.asyncReset.resolved n.domains).eval sim.peek = .ok v → v = 0 ∨ v = 1)
    (run : Released n ((releaser r base).drivenUnder n.domains) (derivedName r)
      (r.asyncReset.resolved n.domains) k sim) : Releasing r base rst k sim := by
  have guards : ∀ {sim : Simulator}, Reachable n sim → _ := fun reached =>
    reached.guards placed declared reset older external alone
  induction run with
  | settled before value on settles =>
    rw [(one before value).resolve_left on] at value
    exact (guards before).releasing settles value
  | ticked other before value on ticks =>
    obtain ⟨mid, next, -, -, last, -, loaded, -, same⟩ :=
      before.tick_guarded external (guards before) ticks
    rw [(one before value).resolve_left on] at value
    exact loaded.releasing last (same.trans value)
  | poke s v outside before ih =>
    have first : firstFlop r base ∈ (releaser r base).drivenUnder n.domains :=
      flop_driven declared reset (.head _)
    have second : secondFlop r base ∈ (releaser r base).drivenUnder n.domains :=
      flop_driven declared reset (.tail _ (.head _))
    refine ⟨?_, ?_, ?_⟩
    · rw [peek_poke_of_mem outside first, ih.first]
    · rw [peek_poke_of_mem outside second, ih.second]
    · rw [peek_poke_of_mem outside (reset_driven declared reset (.inr rfl)),
        peek_poke_of_mem outside second, ih.shown]
  | move before off step elsewhere ih =>
    exact ih.move placed external declared reset older alone before.reachable off step elsewhere
  | edge before off step ih =>
    cases step with
    | tick _ ticks =>
      exact ih.edge placed external declared reset older alone before.reachable off ticks

end Releasing

end Simulator

namespace Lowering

open Simulator

/-- A reset synchronizer sets the reset of its domain at once and releases it on the second edge.
Wherever it is placed, the reset reads one after settling with a request. Once the request is gone
it reads one until there were two edges of the added domain and zero from then on, whatever happens
in other domains. The request can always be read, and where no statement assigns a reset that does
not exist and no width overflows, every step succeeds. -/
theorem resetSync_releases {c : Cell} {r : ResetSync} (kind : c.kind = .resetSync r)
    (supply : Supply) :
    ∃ piece rest, (resetSync.lower c).run.run supply = (.ok piece, rest) ∧
      ∀ (n : Netlist) (d : ClockDomain) (rst : Signal), piece.Placed n → n.External r.asyncReset →
        r.asyncReset.shape = .unsigned 1 →
        (∀ ref ∈ r.asyncReset.refs, (Expr.standsFor n.domains ref).shape = .unsigned 1) →
        n.domains.find? (·.name = r.domain) = some d → d.rst = some rst → rst.shape.Holds 1 →
        rst.id.index < supply.nextSignal →
        (∀ d ∈ n.domains, d.name = s!"{r.domain}_arst" → d ∈ piece.domains) →
          (∀ sim after v, Reachable n sim →
            (r.asyncReset.resolved n.domains).eval sim.peek = .ok v → v ≠ 0 →
            settle.run.run sim = (.ok (), after) → after.peek rst = 1) ∧
          (∀ k sim, Released n (piece.drivenUnder n.domains) s!"{r.domain}_arst"
              (r.asyncReset.resolved n.domains) k sim →
            sim.peek rst = if k < 2 then 1 else 0) ∧
          n.Uses s!"{r.domain}_arst" ∧
          ∀ sim, Reachable n sim →
            (∃ v, (r.asyncReset.resolved n.domains).eval sim.peek = .ok v ∧ (v = 0 ∨ v = 1)) ∧
            (¬ n.AssignsAbsentReset → n.Countable → (settle.run.run sim).1 = .ok () ∧
              ∀ domain, n.Uses domain → ((tick domain).run.run sim).1 = .ok ()) := by
  refine ⟨_, _, run_resetSync kind supply, fun n d rst placed external bit bits declared reset fits
    older alone => ?_⟩
  have one : ∀ {sim : Simulator} {v : Int}, Reachable n sim →
      (r.asyncReset.resolved n.domains).eval sim.peek = .ok v → v = 0 ∨ v = 1 := by
    intro sim v reached value
    obtain ⟨w, same, bit⟩ := reached.request_bit external bit bits
    rw [value] at same
    cases same
    exact bit
  have shows : ∀ {k : Nat} {sim : Simulator}, Released n _ (derivedName r)
      (r.asyncReset.resolved n.domains) k sim → sim.peek rst = if k < 2 then 1 else 0 := fun run =>
    (Releasing.of_released placed external declared reset older alone one run).peek_reset fits
  refine ⟨fun sim after v reached value on settles => shows (.settled reached value on settles),
    fun k sim run => shows run, ?_, fun sim reached => ⟨reached.request_bit external bit bits,
      fun present _ => ?_⟩⟩
  · exact .inr (.inl ⟨_, placed.mem_domains (.head _), rfl⟩)
  · obtain ⟨first, loads, same⟩ := reached.sameDesign
    exact ⟨(same.settle_ends loads).eq_ok present, fun domain used =>
      (same.tick_ends loads ((reached.knows_iff domain).mpr used)).eq_ok present⟩

/-! ### A counter -/

open Signal (wire)

/-- A request to reset a counter. -/
def recount : ResetSync where
  domain := "sys"
  asyncReset := wire 0 "request" 1

/-- The domain of the counter, which is reset on its clock edges. -/
def counting : ClockDomain where
  name := "sys"
  clk := wire 1 "sys_clk" 1
  rst := some (wire 2 "sys_rst" 1)
  asyncReset := false

/-- The counter with its synchronizer, with a signal for the reset and beside other domains. -/
def recountedBeside (rst : Signal) (others : List ClockDomain) : Netlist :=
  { sync := .ofList [
      ("sys", [.assign (wire 3 "count" 4) (.binary .add (wire 3 "count" 4) (.int 1))])]
    domains := { counting with rst := some rst } :: others } ++ releaser recount 8 ++ {}

def recounted : Netlist := recountedBeside (wire 2 "sys_rst" 1) []

/-- A request that is seen. -/
def asked (sim : Simulator) : Simulator :=
  (settle.run.run (sim.poke (wire 0 "request" 1) 1)).2

/-- A request that is taken back before the counter gets an edge. -/
def takenBack (sim : Simulator) : Simulator :=
  ((tick "sys").run.run ((asked sim).poke (wire 0 "request" 1) 0)).2

theorem recounted_trial {sim : Simulator} (started : start recounted = .ok sim) :
    (sim.poke (wire 0 "request" 1) 1).peek (wire 0 "request" 1) = 1 ∧
      (settle.run.run (sim.poke (wire 0 "request" 1) 1)).1 = .ok () ∧
      ((asked sim).poke (wire 0 "request" 1) 0).peek (wire 0 "request" 1) = 0 ∧
      ((tick "sys").run.run ((asked sim).poke (wire 0 "request" 1) 0)).1 = .ok () ∧
      (takenBack sim).peek (wire 0 "request" 1) = 0 ∧
      ((tick "sys_arst").run.run (takenBack sim)).1 = .ok () ∧
      ((tick "sys_arst").run.run (takenBack sim)).2.peek (wire 0 "request" 1) = 0 ∧
      ((tick "sys_arst").run.run ((tick "sys_arst").run.run (takenBack sim)).2).1 = .ok () := by
  apply forall_ok _ sim started
  decide +kernel

theorem recounted_releases :
    ∃ piece rest before after, (resetSync.lower ⟨⟨0⟩, .resetSync recount⟩).run.run
        { nextSignal := 8 } = (.ok piece, rest) ∧ piece.Placed recounted ∧
      recounted.External recount.asyncReset ∧
      recounted.domains.find? (·.name = "sys") = some counting ∧
      Released recounted (piece.drivenUnder recounted.domains) "sys_arst"
        (recount.asyncReset.resolved recounted.domains) 1 before ∧
      before.peek (wire 2 "sys_rst" 1) = 1 ∧
      (tick "sys_arst").run.run before = (.ok (), after) ∧ after.peek (wire 2 "sys_rst" 1) = 0 := by
  obtain ⟨piece, rest, lowered, releases⟩ := resetSync_releases
    (show (⟨⟨0⟩, .resetSync recount⟩ : Cell).kind = .resetSync recount from rfl) { nextSignal := 8 }
  refine ⟨piece, rest, ?_⟩
  rw [run_resetSync rfl] at lowered
  cases lowered
  have placed : (releaser recount 8).Placed recounted := by
    refine ⟨_, _, rfl, ?_⟩
    change ∀ s ∈ OrdSet.toList _, _
    decide +kernel
  have external : recounted.External recount.asyncReset := by decide +kernel
  have declared : recounted.domains.find? (·.name = "sys") = some counting := by decide +kernel
  obtain ⟨sim, started⟩ := exists_ok (by decide +kernel : (start recounted).isOk = true)
  obtain ⟨high, settles, low, other, low', first, low'', second⟩ := recounted_trial started
  have seen : Released recounted ((releaser recount 8).drivenUnder recounted.domains) "sys_arst"
      (recount.asyncReset.resolved recounted.domains) 0 ((asked sim).poke (wire 0 "request" 1) 0) :=
    .poke _ _ (by decide +kernel) (.settled (.poke _ _ (.start (starts_of_start started)))
      (congrArg Except.ok high) (by decide) (eq_ok_of_fst settles))
  have none := seen.move (congrArg Except.ok low) (.tick _ (eq_ok_of_fst other)) (by decide)
  have once := none.edge (congrArg Except.ok low') (.tick _ (eq_ok_of_fst first))
  have twice := once.edge (congrArg Except.ok low'') (.tick _ (eq_ok_of_fst second))
  obtain ⟨-, reads, -⟩ := releases recounted counting (wire 2 "sys_rst" 1) placed external rfl
    (by decide) declared rfl (by decide) (by decide) (by decide +kernel)
  exact ⟨_, _, rfl, placed, external, declared, once, reads 1 _ once, eq_ok_of_fst second,
    reads 2 _ twice⟩

/-! ### Resets that do not fit -/

/-- A domain with the name of the one that is added, and with a reset of its own. -/
def namesake : ClockDomain where
  name := "sys_arst"
  clk := wire 4 "other_clk" 1
  rst := some (wire 5 "other_rst" 1)
  asyncReset := true

/-- A reset of one signed bit. -/
def signedReset : Signal := ⟨⟨2⟩, "sys_rst", .signedOf 1, 0, false⟩

/-- With the reset of the namesake on, the counter stays in reset after two edges without a request.
A reset of one signed bit does not read one even on request. -/
theorem namesake_withholds :
    (∃ sim first second last, start (recountedBeside (wire 2 "sys_rst" 1) [namesake]) = .ok sim ∧
      settle.run.run ((sim.poke (wire 5 "other_rst" 1) 1).poke (wire 0 "request" 1) 1) =
        (.ok (), first) ∧
      (tick "sys_arst").run.run (first.poke (wire 0 "request" 1) 0) = (.ok (), second) ∧
      (tick "sys_arst").run.run second = (.ok (), last) ∧
      last.peek (wire 0 "request" 1) = 0 ∧ last.peek (wire 2 "sys_rst" 1) = 1) ∧
    ∃ sim after, start (recountedBeside signedReset []) = .ok sim ∧
      settle.run.run (sim.poke (wire 0 "request" 1) 1) = (.ok (), after) ∧
      after.peek signedReset = -1 := by
  refine ⟨?_, ?_⟩
  · obtain ⟨sim, started⟩ := exists_ok
      (by decide +kernel : (start (recountedBeside (wire 2 "sys_rst" 1) [namesake])).isOk = true)
    have seen : ∀ sim, start (recountedBeside (wire 2 "sys_rst" 1) [namesake]) = .ok sim →
        let first := settle.run.run
          ((sim.poke (wire 5 "other_rst" 1) 1).poke (wire 0 "request" 1) 1)
        let second := (tick "sys_arst").run.run (first.2.poke (wire 0 "request" 1) 0)
        let last := (tick "sys_arst").run.run second.2
        first.1 = .ok () ∧ second.1 = .ok () ∧ last.1 = .ok () ∧
          last.2.peek (wire 0 "request" 1) = 0 ∧ last.2.peek (wire 2 "sys_rst" 1) = 1 :=
      forall_ok (by decide +kernel)
    obtain ⟨settles, once, twice, off, on⟩ := seen sim started
    exact ⟨sim, _, _, _, started, eq_ok_of_fst settles, eq_ok_of_fst once, eq_ok_of_fst twice, off,
      on⟩
  · obtain ⟨sim, started⟩ := exists_ok
      (by decide +kernel : (start (recountedBeside signedReset [])).isOk = true)
    have seen : ∀ sim, start (recountedBeside signedReset []) = .ok sim →
        let after := settle.run.run (sim.poke (wire 0 "request" 1) 1)
        after.1 = .ok () ∧ after.2.peek signedReset = -1 :=
      forall_ok (by decide +kernel)
    obtain ⟨settles, reads⟩ := seen sim started
    exact ⟨sim, _, started, eq_ok_of_fst settles, reads⟩

end Lowering

end Gateware
