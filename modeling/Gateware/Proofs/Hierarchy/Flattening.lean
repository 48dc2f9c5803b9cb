import Gateware.Hierarchy.Finalize
import Gateware.Proofs.Hierarchy.Sum
import Mathlib.Data.List.Nodup

/-!
# Flattening a module tree

Finalizing goes down a tree of modules, and each module takes over what its children have become.
The order of statements matters, because later ones win.

## Main results

`finalize_flattens`: a tree of modules without hooks and decorators, whose domains have distinct
names, becomes the sum of its modules in pre-order. So nothing is lost, duplicated or put in another
order.

## Proof strategy

By induction on the levels that are left, a subtree becomes the sum of its modules
(`finalizeWithin_flattens`). Distinct names leave nothing to rename, and sums can be taken in any
grouping, so taking over the children's sums gives the sum of all.
-/
namespace Gateware

variable {H : Type}

/-! ### Trees of modules -/

mutual
/-- A module and then all modules inside it, each one before those inside it. -/
def Module.preorder : Module H → List (Module H)
  | ⟨name, netlist, defaultSync, children, hook, decorators, stage⟩ =>
    ⟨name, netlist, defaultSync, children, hook, decorators, stage⟩ ::
      Submodule.preorderOf children

def Submodule.preorder : Submodule H → List (Module H)
  | ⟨_, m⟩ => m.preorder

def Submodule.preorderOf : List (Submodule H) → List (Module H)
  | [] => []
  | c :: cs => c.preorder ++ Submodule.preorderOf cs
end

mutual
/-- The levels of hierarchy in a module, itself included. -/
def Module.levels : Module H → Nat
  | ⟨_, _, _, children, _, _, _⟩ => Submodule.levelsOf children + 1

def Submodule.levels : Submodule H → Nat
  | ⟨_, m⟩ => m.levels

def Submodule.levelsOf : List (Submodule H) → Nat
  | [] => 0
  | c :: cs => max c.levels (Submodule.levelsOf cs)
end

theorem Submodule.preorderOf_eq (cs : List (Submodule H)) :
    preorderOf cs = cs.flatMap (·.module.preorder) := by
  induction cs with
  | nil => rfl
  | cons c cs ih =>
    cases c
    rw [List.flatMap_cons, ← ih]
    rfl

theorem Submodule.levels_le_levelsOf {c : Submodule H} {cs : List (Submodule H)} (hc : c ∈ cs) :
    c.module.levels ≤ levelsOf cs := by
  induction cs with
  | nil => cases hc
  | cons d cs ih =>
    rw [levelsOf]
    rcases List.mem_cons.mp hc with rfl | later
    · cases c
      exact Nat.le_max_left ..
    · exact Nat.le_trans (ih later) (Nat.le_max_right ..)

namespace Module

theorem preorder_eq (m : Module H) :
    m.preorder = m :: m.children.flatMap (·.module.preorder) := by
  rw [← Submodule.preorderOf_eq]
  cases m
  rfl

theorem mem_preorder {m k : Module H} :
    k ∈ m.preorder ↔ k = m ∨ ∃ c ∈ m.children, k ∈ c.module.preorder := by
  rw [preorder_eq, List.mem_cons, List.mem_flatMap]

theorem levels_eq (m : Module H) : m.levels = Submodule.levelsOf m.children + 1 := by
  cases m
  rfl

/-- No module of the tree has been finalized, and none has a hook or a decorator. -/
def Plain (m : Module H) : Prop :=
  ∀ k ∈ m.preorder, k.stage = .building ∧ k.hook = none ∧ k.decorators = []

instance (m : Module H) : Decidable m.Plain :=
  inferInstanceAs (Decidable (∀ k ∈ m.preorder, _ ∧ _ ∧ _))

/-- The names of the domains that the modules of the tree declare. -/
def domainNames (m : Module H) : List String :=
  m.preorder.flatMap fun k => k.netlist.domains.map (·.name)

/-- What a module holds itself, with the clocked logic for the default domain in its place. -/
def own (domain : String) (m : Module H) : Netlist :=
  if m.defaultSync.isEmpty then m.netlist else m.netlist.addSync domain m.defaultSync

/-- All that the modules of the tree hold. -/
def flattened (domain : String) (m : Module H) : Netlist := .sum (m.preorder.map (own domain))

section Own

variable (domain : String) (m : Module H)

theorem placeDefault_eq :
    m.placeDefault domain = { m with netlist := m.own domain, defaultSync := [] } := by
  unfold placeDefault own
  split
  next none =>
    cases m
    cases List.isEmpty_iff.mp none
    rfl
  next => rfl

@[simp] theorem comb_own : (m.own domain).comb = m.netlist.comb := by
  unfold own
  split <;> rfl

@[simp] theorem domains_own : (m.own domain).domains = m.netlist.domains := by
  unfold own
  split <;> rfl

@[simp] theorem cells_own : (m.own domain).cells = m.netlist.cells := by
  unfold own
  split <;> rfl

theorem getD_sync_own (d : String) : (m.own domain).sync.getD d [] =
    m.netlist.sync.getD d [] ++ if d = domain then m.defaultSync else [] := by
  unfold own
  split
  next none =>
    rw [List.isEmpty_iff.mp none, ite_self, List.append_nil]
  next =>
    dsimp only [Netlist.addSync, OrdMap.alter]
    rw [OrdMap.getD, OrdMap.get?_insert]
    split
    next same =>
      rw [same]
      rfl
    next => exact (List.append_nil _).symm

theorem contains_sync_own (d : String) : (m.own domain).sync.contains d =
    (m.netlist.sync.contains d || (d = domain && !m.defaultSync.isEmpty)) := by
  unfold own
  split
  next none => simp [none]
  next some =>
    dsimp only [Netlist.addSync, OrdMap.alter]
    rw [OrdMap.contains, OrdMap.get?_insert]
    by_cases same : d = domain
    · simp [same, some]
    · simp [same, OrdMap.contains]

end Own

theorem flattened_eq (domain : String) (m : Module H) :
    m.flattened domain =
      m.own domain ++ .sum (m.children.map fun c => c.module.flattened domain) := by
  rw [flattened, preorder_eq, List.map_cons, Netlist.sum_cons, List.map_flatMap,
    Netlist.sum_flatMap]
  rfl

theorem names_flattened (domain : String) (m : Module H) :
    (m.flattened domain).domains.map (·.name) = m.domainNames := by
  rw [flattened, Netlist.domains_sum, List.flatMap_map, List.map_flatMap, domainNames]
  simp only [domains_own]

theorem domainNames_eq (m : Module H) : m.domainNames =
    m.netlist.domains.map (·.name) ++ m.children.flatMap (·.module.domainNames) := by
  rw [domainNames, preorder_eq, List.flatMap_cons, List.flatMap_assoc]
  rfl

/-! ### Nothing to rename -/

theorem countP_declared_le_one {ns : List Netlist}
    (distinct : (ns.flatMap fun n => n.domains.map (·.name)).Nodup) (d : String) :
    (ns.map Netlist.declared).countP (d ∈ ·) ≤ 1 := by
  induction ns with
  | nil => exact Nat.zero_le _
  | cons n ns ih =>
    rw [List.flatMap_cons] at distinct
    obtain ⟨-, rest, apart⟩ := List.nodup_append.mp distinct
    rw [List.map_cons, List.countP_cons]
    by_cases here : d ∈ n.declared
    · have later : (ns.map Netlist.declared).countP (d ∈ ·) = 0 := by
        rw [List.countP_eq_zero]
        intro s hs
        obtain ⟨other, hother, rfl⟩ := List.mem_map.mp hs
        rw [decide_eq_true_eq, Netlist.declared, OrdSet.mem_ofList]
        intro there
        rw [Netlist.declared, OrdSet.mem_ofList] at here
        exact apart d here d (List.mem_flatMap.mpr ⟨other, hother, there⟩) rfl
      rw [later]
      split <;> omega
    · have := ih rest
      simp only [here, decide_false, Bool.false_eq_true, if_false]
      omega

/-- Where all declared names differ, no domain collides. -/
theorem collisions_eq_nil {own : Netlist} {children : List (Submodule H)}
    (distinct : ((own :: children.map (·.module.netlist)).flatMap
      fun n => n.domains.map (·.name)).Nodup) : collisions own children = [] := by
  unfold collisions
  refine List.filter_eq_nil_iff.mpr fun d _ => ?_
  have bound := countP_declared_le_one distinct d
  rw [List.map_cons, List.map_map] at bound
  exact fun many => absurd (of_decide_eq_true many) (Nat.not_lt.mpr bound)

theorem separateAll_eq_self {path : String} {own : Netlist} {children : List (Submodule H)}
    (none : collisions own children = []) : separateAll path own children = .ok children := by
  rw [separateAll, none]
  rfl

/-- Without decorators, assembling adds the children's netlists to the module's. -/
theorem assemble_eq {m : Module H} (decorators : m.decorators = [])
    (children : List (Submodule H)) :
    m.assemble children = { m with
      netlist := m.netlist ++ .sum (children.map (·.module.netlist)), children := [] } := by
  rw [← Netlist.foldl_append, List.foldl_map, assemble, decorators]
  rfl

/-! ### Running the steps -/

theorem run_state_bind {σ α β : Type} {x : StateM σ α} {k : α → StateM σ β} {s s' : σ} {a : α}
    (h : x.run s = (a, s')) : (x >>= k).run s = (k a).run s' := by
  rw [StateT.run_bind, h]
  rfl

/-- A sequence goes on after a step that ends well. -/
theorem run_bind_ok {α β : Type} {x : Finalizing H α} {k : α → Finalizing H β} {m m' : Module H}
    {ctx ctx' : Context} {a : α} (h : (x.run.run m).run ctx = ((.ok a, m'), ctx')) :
    ((x >>= k).run.run m).run ctx = ((k a).run.run m').run ctx' := by
  simp only [ExceptT.run_bind, StateT.run_bind, h]
  rfl

/-- A sequence ends with a step that fails. -/
theorem run_bind_error {α β : Type} {x : Finalizing H α} {k : α → Finalizing H β} {m m' : Module H}
    {ctx ctx' : Context} {f : Fault} (h : (x.run.run m).run ctx = ((.error f, m'), ctx')) :
    ((x >>= k).run.run m).run ctx = ((.error f, m'), ctx') := by
  simp only [ExceptT.run_bind, StateT.run_bind, h]
  rfl

theorem run_lift_ok {α : Type} {x : StateM Context α} {m : Module H} {ctx ctx' : Context} {a : α}
    (h : x.run ctx = (a, ctx')) :
    ((lift (ExceptT.lift x)).run.run m).run ctx = ((.ok a, m), ctx') := by
  have mapped : (ExceptT.lift x : Elaboration α).run.run ctx = (.ok a, ctx') := by
    rw [ExceptT.run_lift, StateT.run_map, h]
    rfl
  exact run_state_bind mapped

theorem run_except_ok {α : Type} {x : Except Fault α} {a : α} (h : x = .ok a) (m : Module H)
    (ctx : Context) : ((liftM x : Finalizing H α).run.run m).run ctx = ((.ok a, m), ctx) := by
  subst h
  rfl

theorem run_except_error {α : Type} {x : Except Fault α} {f : Fault} (h : x = .error f)
    (m : Module H) (ctx : Context) :
    ((liftM x : Finalizing H α).run.run m).run ctx = ((.error f, m), ctx) := by
  subst h
  rfl

section Steps

variable {run : Finalizer H} {ctx : Context}

/-- Children that are each finalized are finalized in order. -/
theorem run_finalizeAll {f : Module H → Netlist} {cs : List (Submodule H)}
    (each : ∀ c ∈ cs, c.module.stage ≠ .finalized ∧ ∃ done,
      (run { c.module with name := c.name.getD c.module.name }).run ctx = ((.ok (), done), ctx) ∧
        done.netlist = f c.module) :
    ∃ children, (finalizeAll run cs).run ctx = ((.ok (), children), ctx) ∧
      children.map (·.module.netlist) = cs.map fun c => f c.module := by
  induction cs with
  | nil => exact ⟨[], rfl, rfl⟩
  | cons c cs ih =>
    obtain ⟨⟨unfinished, done, ran, netlist⟩, rest⟩ := List.forall_mem_cons.mp each
    obtain ⟨children, all, netlists⟩ := ih rest
    refine ⟨{ c with module := done } :: children, ?_, ?_⟩
    · rw [finalizeAll, if_neg unfinished]
      exact (run_state_bind ran).trans (run_state_bind all)
    · rw [List.map_cons, List.map_cons, netlists, netlist]

/-- A module takes its children back as they have become, also if one of them failed. -/
theorem run_finalizeChildren (m : Module H) {left : Context} {result : Except Fault Unit}
    {cs children : List (Submodule H)} (listed : m.children = cs)
    (all : (finalizeAll run cs).run ctx = ((result, children), left)) :
    ((finalizeChildren run).run.run m).run ctx = ((result, { m with children }), left) := by
  subst listed
  unfold finalizeChildren
  refine (run_bind_ok rfl).trans ((run_bind_ok (run_lift_ok all)).trans ?_)
  cases result <;> rfl

variable [Hooks H]

/-- A module without hook and decorators becomes its own netlist and those of its children, if
their domains have distinct names. -/
theorem run_finalizeWith {m : Module H} {children : List (Submodule H)} (hook : m.hook = none)
    (decorators : m.decorators = [])
    (all : (finalizeAll run m.children).run ctx = ((.ok (), children), ctx))
    (distinct : ((m.own ctx.defaultDomain ++
      .sum (children.map (·.module.netlist))).domains.map (·.name)).Nodup) :
    ((finalizeWith run).run.run m).run ctx =
      ((.ok (), { m with
        netlist := m.own ctx.defaultDomain ++ .sum (children.map (·.module.netlist))
        defaultSync := [], children := [], stage := .finalized }), ctx) := by
  have names : ((m.own ctx.defaultDomain :: children.map (·.module.netlist)).flatMap
      fun n => n.domains.map (·.name)).Nodup := by
    rwa [← Netlist.sum_cons, Netlist.domains_sum, List.map_flatMap] at distinct
  have separated : separateAll ctx.pathText (m.own ctx.defaultDomain) children = .ok children :=
    separateAll_eq_self (collisions_eq_nil names)
  have entered : ((finalizeChildren run).run.run { m with stage := .finalizing }).run ctx =
      ((.ok (), { m with stage := .finalizing, children }), ctx) :=
    run_finalizeChildren _ rfl all
  unfold finalizeWith
  -- The module is marked as entered, and its children are finalized.
  refine (run_bind_ok rfl).trans ?_
  refine (run_bind_ok entered).trans ?_
  -- There is no hook to run.
  refine (run_bind_ok rfl).trans ?_
  simp only [hook]
  refine (run_bind_ok rfl).trans ?_
  -- What is clocked by default finds its place, and no domain has to be renamed.
  refine (run_bind_ok rfl).trans ?_
  refine (run_bind_ok rfl).trans ?_
  rw [placeDefault_eq]
  refine (run_bind_ok (run_except_ok separated _ _)).trans ?_
  -- The children's netlists follow, and the check finds no domain twice.
  refine (run_bind_ok rfl).trans ?_
  dsimp only
  rw [assemble_eq (by exact decorators)]
  refine (run_bind_ok rfl).trans ?_
  exact run_bind_ok (run_except_ok (Netlist.checkDomains_ok_iff.mpr distinct) _ _)

end Steps

/-! ### The whole tree -/

theorem Plain.root {m : Module H} (h : m.Plain) :
    m.stage = .building ∧ m.hook = none ∧ m.decorators = [] :=
  h m (mem_preorder.mpr (.inl rfl))

section Named

variable (m : Module H) (name : String)

theorem flattened_named (domain : String) :
    { m with name }.flattened domain = m.flattened domain := by
  rw [flattened_eq, flattened_eq domain m]
  rfl

theorem domainNames_named : { m with name }.domainNames = m.domainNames := by
  rw [domainNames_eq, domainNames_eq m]

theorem levels_named : { m with name }.levels = m.levels := by
  rw [levels_eq, levels_eq m]

variable {m}

theorem Plain.named (h : m.Plain) : { m with name }.Plain := by
  intro k hk
  rcases mem_preorder.mp hk with rfl | below
  · exact h.root
  · exact h k (mem_preorder.mpr (.inr below))

end Named

section Child

variable {m : Module H} {c : Submodule H} (hc : c ∈ m.children)

include hc

theorem Plain.child (h : m.Plain) : c.module.Plain :=
  fun k hk => h k (mem_preorder.mpr (.inr ⟨c, hc, hk⟩))

theorem nodup_domainNames_child (distinct : m.domainNames.Nodup) : c.module.domainNames.Nodup := by
  rw [domainNames_eq] at distinct
  obtain ⟨-, inner, -⟩ := List.nodup_append.mp distinct
  exact (List.nodup_flatMap.mp inner).1 c hc

theorem levels_child_lt : c.module.levels < m.levels := by
  have bound := Submodule.levels_le_levelsOf hc
  rw [m.levels_eq]
  omega

end Child

theorem exit_inside (ctx : Context) (name : String) : (ctx.inside name).exit = ctx := by
  obtain ⟨defaultDomain, maxDepth, path, log, supply⟩ := ctx
  simp only [Context.inside, Context.exit, List.dropLast_concat]

variable [Hooks H]

/-- A module is entered if it has not been before, and left whatever comes of it. -/
theorem run_finalizeWithin_succ {room : Nat} {m : Module H} {ctx left : Context}
    {ended : Except Fault Unit × Module H} (building : m.stage = .building)
    (ran : ((finalizeWith (finalizeWithin room)).run.run m).run (ctx.inside m.name) =
      (ended, left)) :
    (finalizeWithin (room + 1) m).run ctx = (ended, left.exit) := by
  unfold finalizeWithin
  refine (run_state_bind rfl).trans ?_
  rw [if_neg (by simp [building])]
  exact (run_state_bind rfl).trans ((run_state_bind ran).trans (run_state_bind rfl))

/-- With room for its levels a tree becomes the sum of its modules, and the context is left as it
was found. -/
theorem finalizeWithin_flattens {room : Nat} {m : Module H} (ctx : Context) (plain : m.Plain)
    (distinct : m.domainNames.Nodup) (fits : m.levels ≤ room) :
    (finalizeWithin room m).run ctx =
      ((.ok (), { m with
        netlist := m.flattened ctx.defaultDomain, defaultSync := [], children := []
        stage := .finalized }), ctx) := by
  induction room generalizing m ctx with
  | zero =>
    rw [levels_eq] at fits
    omega
  | succ room ih =>
    obtain ⟨building, hook, decorators⟩ := plain.root
    have each : ∀ c ∈ m.children, c.module.stage ≠ .finalized ∧ ∃ done,
        (finalizeWithin room { c.module with name := c.name.getD c.module.name }).run
          (ctx.inside m.name) = ((.ok (), done), ctx.inside m.name) ∧
        done.netlist = c.module.flattened ctx.defaultDomain := by
      intro c hc
      have below := plain.child hc
      refine ⟨by simp [below.root.1], _, ih (ctx.inside m.name) (below.named _) ?_ ?_, ?_⟩
      · rw [domainNames_named]
        exact nodup_domainNames_child hc distinct
      · have shallow := levels_child_lt hc
        rw [levels_named]
        omega
      · exact flattened_named ..
    obtain ⟨children, all, netlists⟩ := run_finalizeAll each
    -- The module's own netlist and the children's sums group the sum over the whole tree.
    have whole : m.own (ctx.inside m.name).defaultDomain ++
        .sum (children.map (·.module.netlist)) = m.flattened ctx.defaultDomain := by
      rw [netlists]
      exact (flattened_eq ctx.defaultDomain m).symm
    have ran := run_finalizeWith hook decorators all (by
      rw [whole]
      rwa [names_flattened])
    rw [whole] at ran
    rw [run_finalizeWithin_succ building ran, exit_inside]

/-- A tree without hooks and decorators, whose domains have distinct names, is finalized if the
context has room for its levels. Its statements and domains are those of its modules in pre-order,
where what is clocked by default comes after the module's own list for that domain, and of cells
with the same identity the first is kept. -/
theorem finalize_flattens (m : Module H) (plain : m.Plain) (distinct : m.domainNames.Nodup)
    (ctx : Context) (fits : ctx.depth + m.levels ≤ ctx.maxDepth) :
    ∃ netlist,
      m.finalize.run ctx = ((.ok (), { m with
        netlist, defaultSync := [], children := [], stage := .finalized }), ctx) ∧
      netlist.comb = m.preorder.flatMap (·.netlist.comb) ∧
      (∀ d, netlist.sync.getD d [] = m.preorder.flatMap fun k =>
        k.netlist.sync.getD d [] ++ if d = ctx.defaultDomain then k.defaultSync else []) ∧
      (∀ d, netlist.sync.contains d = m.preorder.any fun k =>
        k.netlist.sync.contains d || (d = ctx.defaultDomain && !k.defaultSync.isEmpty)) ∧
      netlist.domains = m.preorder.flatMap (·.netlist.domains) ∧
      ∀ i, netlist.cells.get? i = m.preorder.findSome? (·.netlist.cells.get? i) := by
  refine ⟨m.flattened ctx.defaultDomain, ?_, ?_, ?_, ?_, ?_, ?_⟩
  · exact (run_state_bind rfl).trans
      (finalizeWithin_flattens ctx plain distinct (Nat.le_sub_of_add_le' fits))
  · simp only [flattened, Netlist.comb_sum, List.flatMap_map, comb_own]
  · intro d
    simp only [flattened, Netlist.getD_sync_sum, List.flatMap_map, getD_sync_own]
  · intro d
    simp only [flattened, Netlist.contains_sync_sum, List.any_map, Function.comp_def,
      contains_sync_own]
  · simp only [flattened, Netlist.domains_sum, List.flatMap_map, domains_own]
  · intro i
    simp only [flattened, Netlist.get?_cells_sum, List.findSome?_map, Function.comp_def, cells_own]

namespace Sample

/-- A statement for each number. -/
def mark (i : Nat) : Stmt := .assign (.signal ⟨⟨i⟩, "x", .unsigned 1, 0, false⟩) (.int 1)

/-- A clock for each name. -/
def clock (name : String) : ClockDomain :=
  { name, clk := ⟨⟨0⟩, "clk", .unsigned 1, 0, false⟩, rst := none, asyncReset := false }

def pll : Cell := ⟨⟨7⟩, .inst { of := "PLL" }⟩

/-- Three levels of modules, one of them without a name. Two of them hold the same cell. -/
def board : Module Hook := { empty "board" with
  netlist := { comb := [mark 1], domains := [clock "sys"] }
  defaultSync := [mark 2]
  children := [
    ⟨some "core", { empty "cpu" with
      netlist := {
        comb := [mark 3], sync := .ofList [("sys", [mark 4])], cells := .ofList [(pll.id, pll)] }
      defaultSync := [mark 5]
      children := [⟨none, ofNetlist "alu" {
        comb := [mark 6], cells := .ofList [(pll.id, pll)], domains := [clock "fast"] }⟩] }⟩,
    ⟨some "bus", ofNetlist "bus" {
      comb := [mark 7], sync := .ofList [("fast", [mark 8]), ("sys", [mark 9])] }⟩] }

def inRack : Context := { defaultDomain := "sys", maxDepth := 4, path := ["rack"] }

end Sample

open Sample

theorem board_flattens :
    board.Plain ∧ board.domainNames.Nodup ∧ inRack.depth + board.levels ≤ inRack.maxDepth ∧
    ∃ netlist,
      board.finalize.run inRack =
        ((.ok (), { ofNetlist "board" netlist with stage := .finalized }), inRack) ∧
      netlist.comb = [mark 1, mark 3, mark 6, mark 7] ∧
      netlist.sync.getD "sys" [] = [mark 2, mark 4, mark 5, mark 9] ∧
      netlist.sync.getD "fast" [] = [mark 8] ∧
      netlist.domains = [clock "sys", clock "fast"] ∧ netlist.cells.get? pll.id = some pll := by
  have plain : board.Plain := by decide
  have distinct : board.domainNames.Nodup := by decide
  have fits : inRack.depth + board.levels ≤ inRack.maxDepth := by decide
  obtain ⟨netlist, finalized, comb, sync, -, domains, cells⟩ :=
    finalize_flattens board plain distinct inRack fits
  exact ⟨plain, distinct, fits, netlist, finalized, comb, sync "sys", sync "fast", domains,
    cells pll.id⟩

end Module

end Gateware
