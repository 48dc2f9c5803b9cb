import Gateware.Proofs.Hierarchy.Separation

/-!
# Bounded hierarchies

Hooks add modules while a tree is being finalized, so the tree itself bounds nothing. What does is
the limit on how deep a module may be.

## Main results

`finalize_bounded`: finalizing is the only solution of a recursion that knows of no bound but that
limit, calls nest no deeper than it, every run leaves the context inside the modules it was inside
of, and a run goes too deep where the tree is too high or modules regenerate each other. It holds of
all hooks that leave the stage of the module and the level of the context alone (`LawfulHooks`).

## Proof strategy

What can happen until a module takes over its children is said once, for all outcomes (`Gathers`).
A run depends on the calls inside it only at contexts one level down (`visit_congr`), and those have
less room, so the room that a run starts with is what the limit leaves.
-/
namespace Gateware

/-! ### Levels -/

/-- Two contexts inside the same modules and with the same limit. -/
def Context.Level (c c' : Context) : Prop := c'.path = c.path ∧ c'.maxDepth = c.maxDepth

namespace Context

variable {a b c : Context}

theorem Level.refl (c : Context) : c.Level c := ⟨rfl, rfl⟩

theorem Level.trans (first : a.Level b) (second : b.Level c) : a.Level c :=
  ⟨second.1.trans first.1, second.2.trans first.2⟩

theorem Level.exit {name : String} (h : (a.inside name).Level b) : a.Level b.exit :=
  ⟨by rw [Context.exit, h.1, inside, List.dropLast_concat], h.2⟩

theorem Level.depth_eq (h : a.Level b) : b.depth = a.depth := congrArg List.length h.1

theorem depth_inside (c : Context) (name : String) : (c.inside name).depth = c.depth + 1 :=
  List.length_append

end Context

variable {H : Type}

mutual
/-- The levels of hierarchy that have yet to be finalized in a module, itself included. -/
def Module.height : Module H → Nat
  | ⟨_, _, _, children, _, _, _⟩ => Submodule.heightOf children + 1

def Submodule.height : Submodule H → Nat
  | ⟨_, m⟩ => if m.stage = .finalized then 0 else m.height

def Submodule.heightOf : List (Submodule H) → Nat
  | [] => 0
  | c :: cs => max c.height (Submodule.heightOf cs)
end

theorem Submodule.heightOf_le_iff {cs : List (Submodule H)} {n : Nat} :
    heightOf cs ≤ n ↔ ∀ c ∈ cs, c.module.stage ≠ .finalized → c.module.height ≤ n := by
  induction cs with
  | nil => simp [heightOf]
  | cons c cs ih =>
    obtain ⟨name, m⟩ := c
    rw [heightOf, Nat.max_le, ih, List.forall_mem_cons, height]
    by_cases finished : m.stage = .finalized <;> simp [finished]

namespace Module

theorem height_eq (m : Module H) : m.height = Submodule.heightOf m.children + 1 := by
  cases m
  rfl

theorem height_named (m : Module H) (name : String) : { m with name }.height = m.height := by
  rw [height_eq, height_eq m]

/-- No module of the tree has a hook. -/
def Hookless (m : Module H) : Prop := ∀ k ∈ m.preorder, k.hook = none

instance (m : Module H) : Decidable m.Hookless :=
  inferInstanceAs (Decidable (∀ k ∈ m.preorder, _))

theorem Hookless.root {m : Module H} (h : m.Hookless) : m.hook = none :=
  h m (mem_preorder.mpr (.inl rfl))

theorem Hookless.child {m : Module H} (h : m.Hookless) {c : Submodule H} (hc : c ∈ m.children)
    (name : String) : { c.module with name }.Hookless := by
  intro k hk
  rcases mem_preorder.mp hk with rfl | below
  · exact h c.module (mem_preorder.mpr (.inr ⟨c, hc, mem_preorder.mpr (.inl rfl)⟩))
  · exact h k (mem_preorder.mpr (.inr ⟨c, hc, mem_preorder.mpr (.inr below)⟩))

/-! ### Hooks -/

/-- Whatever comes of a step, it leaves the module at its stage and the context at its level. -/
def Settled {α : Type} (x : Finalizing H α) : Prop :=
  ∀ m ctx, ((x.run.run m).run ctx).1.2.stage = m.stage ∧ ctx.Level ((x.run.run m).run ctx).2

theorem Settled.bind {α β : Type} {x : Finalizing H α} {k : α → Finalizing H β} (first : Settled x)
    (rest : ∀ a, Settled (k a)) : Settled (x >>= k) := by
  intro m ctx
  obtain ⟨stage, level⟩ := first m ctx
  rcases ran : (x.run.run m).run ctx with ⟨⟨result, m'⟩, ctx'⟩
  rw [ran] at stage level
  cases result with
  | error f =>
    rw [run_bind_error ran]
    exact ⟨stage, level⟩
  | ok a =>
    rw [run_bind_ok ran]
    obtain ⟨stage', level'⟩ := rest a m' ctx'
    exact ⟨stage'.trans stage, level.trans level'⟩

theorem stage_extend {m grown : Module H} {a : Addition H} (h : m.extend a = .ok grown) :
    grown.stage = m.stage := by
  cases a with
  | child name child =>
    cases name with
    | none =>
      cases h
      rfl
    | some name =>
      rw [extend] at h
      split at h
      next => cases h
      next =>
        cases h
        rfl
  | fault f => cases h
  | comb | sync | defaultSync | cell | domain | netlist | decorate | hook =>
    cases h
    rfl

theorem settled_grow (a : Addition H) : Settled (grow a) := by
  intro m ctx
  have started : ((grow a).run.run m).run ctx =
      ((liftM (m.extend a) >>= set : Finalizing H Unit).run.run m).run ctx := run_bind_ok rfl
  rw [started]
  cases extended : m.extend a with
  | error f => exact ⟨rfl, .refl ctx⟩
  | ok grown => exact ⟨stage_extend extended, .refl ctx⟩

theorem settled_lift {α : Type} {x : Elaboration α}
    (level : ∀ ctx : Context, ctx.Level (x.run.run ctx).2) :
    Settled (lift x : Finalizing H α) :=
  fun _ ctx => ⟨rfl, level ctx⟩

theorem level_bind {α β : Type} {x : Elaboration α} {k : α → Elaboration β}
    (first : ∀ ctx : Context, ctx.Level (x.run.run ctx).2)
    (rest : ∀ a (ctx : Context), ctx.Level ((k a).run.run ctx).2) (ctx : Context) :
    ctx.Level ((x >>= k).run.run ctx).2 := by
  have level := first ctx
  rw [ExceptT.run_bind, StateT.run_bind]
  generalize x.run.run ctx = ran at level ⊢
  obtain ⟨f | a, ctx'⟩ := ran
  · exact level
  · exact level.trans (rest a ctx')

theorem level_build {α : Type} (act : Build α) (ctx : Context) :
    ctx.Level ((Elaboration.build act).run.run ctx).2 :=
  ⟨rfl, rfl⟩

theorem settled_compile (machine : Machine) :
    Settled (lift (compile machine) : Finalizing H Machine.Compiled) := by
  -- Compiling draws identities and writes to the log, and both leave the level alone.
  refine settled_lift (level_bind .refl fun ctx => level_bind (level_build _) fun compiled => ?_)
  exact level_bind (fun _ => ⟨rfl, rfl⟩) fun _ => .refl

end Module

/-- Hooks that add to a module and leave it at its stage. They may draw identities and report, but
they neither go into modules nor change the limit. -/
class LawfulHooks (H : Type) [Hooks H] : Prop where
  settled : ∀ h : H, Module.Settled (Hooks.run h)

namespace Module

instance : LawfulHooks Hook where
  settled hook := by
    cases hook with
    | extend additions =>
      change Settled (additions.forM grow)
      induction additions with
      | nil => exact fun m ctx => ⟨rfl, .refl ctx⟩
      | cons a additions ih => exact (settled_grow a).bind fun _ => ih
    | machine machine => exact (settled_compile machine).bind fun _ => settled_grow _
    | regenerate => exact settled_grow _

/-! ### The children -/

section Children

variable {run run' : Finalizer H} {cs cs' : List (Submodule H)} {ctx left : Context}

/-- If all children are finalized, then each one is, unless it was so already. -/
theorem of_finalizeAll_ok (all : (finalizeAll run cs).run ctx = ((.ok (), cs'), left))
    {c : Submodule H} (hc : c ∈ cs) (unfinished : c.module.stage ≠ .finalized) :
    ∃ outer done after, (run { c.module with name := c.name.getD c.module.name }).run outer =
      ((.ok (), done), after) := by
  induction cs generalizing cs' ctx with
  | nil => cases hc
  | cons b cs ih =>
    rcases of_finalizeAll_cons_ok all with ⟨finished, rest, later⟩ |
      ⟨-, done, between, rest, first, later⟩
    · rcases List.mem_cons.mp hc with rfl | hc
      · exact absurd finished unfinished
      · exact ih later hc
    · rcases List.mem_cons.mp hc with rfl | hc
      · exact ⟨ctx, done, between, first⟩
      · exact ih later hc

/-- What stops the children stops one of them that had not been finalized. -/
theorem of_finalizeAll_error {f : Fault}
    (all : (finalizeAll run cs).run ctx = ((.error f, cs'), left)) :
    ∃ c ∈ cs, c.module.stage ≠ .finalized ∧ ∃ outer done after,
      (run { c.module with name := c.name.getD c.module.name }).run outer =
        ((.error f, done), after) := by
  induction cs generalizing cs' ctx with
  | nil => cases all
  | cons c cs ih =>
    unfold finalizeAll at all
    split at all
    next =>
      rcases later : (finalizeAll run cs).run ctx with ⟨⟨result, rest⟩, ended⟩
      rw [run_state_bind later] at all
      cases all
      obtain ⟨d, hd, stopped⟩ := ih later
      exact ⟨d, .tail _ hd, stopped⟩
    next unfinished =>
      rcases first : (run { c.module with name := c.name.getD c.module.name }).run ctx with
        ⟨⟨result, done⟩, between⟩
      rw [run_state_bind first] at all
      cases result with
      | error g =>
        cases all
        exact ⟨c, .head _, unfinished, ctx, _, _, first⟩
      | ok _ =>
        rcases later : (finalizeAll run cs).run between with ⟨⟨result, rest⟩, ended⟩
        rw [run_state_bind later] at all
        cases all
        obtain ⟨d, hd, stopped⟩ := ih later
        exact ⟨d, .tail _ hd, stopped⟩

/-- At the level of a context, two ways to finalize modules do the same and stay at that level. -/
def Agrees (run run' : Finalizer H) (outer : Context) : Prop :=
  ∀ k ctx, outer.Level ctx →
    (run k).run ctx = (run' k).run ctx ∧ outer.Level ((run k).run ctx).2

theorem finalizeAll_congr {outer : Context} (agrees : Agrees run run' outer)
    (cs : List (Submodule H)) {ctx : Context} (here : outer.Level ctx) :
    (finalizeAll run cs).run ctx = (finalizeAll run' cs).run ctx ∧
      outer.Level ((finalizeAll run cs).run ctx).2 := by
  induction cs generalizing ctx with
  | nil => exact ⟨rfl, here⟩
  | cons c cs ih =>
    unfold finalizeAll
    split
    next =>
      obtain ⟨same, level⟩ := ih here
      rcases rest : (finalizeAll run cs).run ctx with ⟨⟨result, done⟩, left⟩
      rw [rest] at same level
      rw [run_state_bind rest, run_state_bind same.symm]
      exact ⟨rfl, level⟩
    next =>
      obtain ⟨same, level⟩ := agrees { c.module with name := c.name.getD c.module.name } ctx here
      rcases first : (run { c.module with name := c.name.getD c.module.name }).run ctx with
        ⟨⟨result, done⟩, between⟩
      rw [first] at same level
      rw [run_state_bind first, run_state_bind same.symm]
      cases result with
      | error f => exact ⟨rfl, level⟩
      | ok _ =>
        obtain ⟨same, level⟩ := ih level
        rcases rest : (finalizeAll run cs).run between with ⟨⟨result, done⟩, left⟩
        rw [rest] at same level
        dsimp only
        rw [run_state_bind rest, run_state_bind same.symm]
        exact ⟨rfl, level⟩

end Children

/-! ### Taking the children over -/

theorem separateAll_error {path : String} {own : Netlist} {cs : List (Submodule H)} {f : Fault}
    (h : separateAll path own cs = .error f) : ∃ d, f = .anonymousDomainCollision path d := by
  -- Nothing but a single renaming raises a fault; both loops pass it on.
  have one : ∀ {d} {c : Submodule H}, separate path d c = .error f →
      f = .anonymousDomainCollision path d := by
    intro d c h
    unfold separate at h
    split at h <;> cases h
    rfl
  have each : ∀ {d} {cs : List (Submodule H)}, cs.mapM (separate path d) = .error f →
      f = .anonymousDomainCollision path d := by
    intro d cs h
    induction cs with
    | nil => cases h
    | cons c cs ih =>
      rw [List.mapM_cons] at h
      rcases bind_eq_error.mp h with first | ⟨c', -, h⟩
      · exact one first
      · rcases bind_eq_error.mp h with rest | ⟨cs', -, h⟩
        · exact ih rest
        · cases h
  unfold separateAll at h
  generalize collisions own cs = ds at h
  induction ds generalizing cs with
  | nil => cases h
  | cons d ds ih =>
    rw [List.foldlM_cons] at h
    rcases bind_eq_error.mp h with first | ⟨between, -, rest⟩
    · exact ⟨d, each first⟩
    · exact ih rest

theorem checkDomains_error {n : Netlist} {f : Fault} (h : n.checkDomains = .error f) :
    ∃ d, f = .duplicateClockDomain d := by
  unfold Netlist.checkDomains at h
  split at h
  next d _ =>
    cases h
    exact ⟨d, rfl⟩
  next => cases h

/-- Taking over the children leaves the context alone. It finishes the module or finds domains that
cannot be told apart. -/
theorem run_completing (entered ctx : Context) {ready : Module H}
    (unfinished : ready.stage = .finalizing) :
    ∃ result done, ((completing entered).run.run ready).run ctx = ((result, done), ctx) ∧
      (done.stage = .finalized ↔ result = .ok ()) ∧
      ∀ path limit, result ≠ .error (.hierarchyTooDeep path limit) := by
  unfold completing
  cases separated : separateAll entered.pathText ready.netlist ready.children with
  | error f =>
    obtain ⟨d, rfl⟩ := separateAll_error separated
    refine ⟨.error (.anonymousDomainCollision entered.pathText d), ready, ?_, ?_, ?_⟩
    · exact (run_bind_ok rfl).trans (run_bind_error (run_except_error separated _ _))
    · simp [unfinished]
    · intro path limit same
      cases same
  | ok children =>
    cases checked : (ready.assemble children).netlist.checkDomains with
    | error f =>
      obtain ⟨d, rfl⟩ := checkDomains_error checked
      refine ⟨.error (.duplicateClockDomain d), ready.assemble children, ?_, ?_, ?_⟩
      · refine (run_bind_ok rfl).trans ((run_bind_ok (run_except_ok separated _ _)).trans ?_)
        refine (run_bind_ok rfl).trans ((run_bind_ok rfl).trans ?_)
        exact run_bind_error (run_except_error checked _ _)
      · simp [assemble, unfinished]
      · intro path limit same
        cases same
    | ok u =>
      refine ⟨.ok (), { ready.assemble children with stage := .finalized }, ?_, ?_, ?_⟩
      · refine (run_bind_ok rfl).trans ((run_bind_ok (run_except_ok separated _ _)).trans ?_)
        refine (run_bind_ok rfl).trans ((run_bind_ok rfl).trans ?_)
        exact run_bind_ok (run_except_ok checked _ _)
      · simp
      · intro path limit same
        cases same

/-! ### All outcomes of a module -/

section Outcomes

variable [Hooks H] {run : Finalizer H}

/-- What can come of finalizing the children and running the hook, in the order of these steps. The
module is as it then is, before what is clocked by default finds its place. -/
inductive Gathers (run : Finalizer H) (m : Module H) (ctx : Context) :
    Except Fault Unit → Module H → Context → Prop
  | child {f cs left} :
    (finalizeAll run m.children).run ctx = ((.error f, cs), left) →
    Gathers run m ctx (.error f) { m with stage := .finalizing, children := cs } left
  | plain {cs left} :
    (finalizeAll run m.children).run ctx = ((.ok (), cs), left) → m.hook = none →
    Gathers run m ctx (.ok ()) { m with stage := .finalizing, children := cs } left
  | hook {cs between hook f grown left} :
    (finalizeAll run m.children).run ctx = ((.ok (), cs), between) → m.hook = some hook →
    ((Hooks.run hook).run.run { m with stage := .finalizing, children := cs, hook := none }).run
      between = ((.error f, grown), left) →
    Gathers run m ctx (.error f) grown left
  | added {cs between hook grown hooked result cs' left} :
    (finalizeAll run m.children).run ctx = ((.ok (), cs), between) → m.hook = some hook →
    ((Hooks.run hook).run.run { m with stage := .finalizing, children := cs, hook := none }).run
      between = ((.ok (), grown), hooked) →
    (finalizeAll run grown.children).run hooked = ((result, cs'), left) →
    Gathers run m ctx result { grown with children := cs' } left

theorem exists_gathers (run : Finalizer H) (m : Module H) (ctx : Context) :
    ∃ result ready left, Gathers run m ctx result ready left := by
  rcases first : (finalizeAll run m.children).run ctx with ⟨⟨f | u, cs⟩, between⟩
  · exact ⟨_, _, _, .child first⟩
  · cases hooks : m.hook with
    | none => exact ⟨_, _, _, .plain first hooks⟩
    | some hook =>
      rcases grew : ((Hooks.run hook).run.run
        { m with stage := .finalizing, children := cs, hook := none }).run between with
        ⟨⟨f | u, grown⟩, hooked⟩
      · exact ⟨_, _, _, .hook first hooks grew⟩
      · exact ⟨_, _, _, .added first hooks grew rfl⟩

/-- Finalize the children, run the hook and finalize what it added. -/
def gathering (run : Finalizer H) : Finalizing H Unit := do
  modify fun m => { m with stage := .finalizing }
  finalizeChildren run
  let m ← get
  m.hook.elim (pure ()) fun hook => do
    set { m with hook := none }
    Hooks.run hook
    finalizeChildren run

theorem finalizeWith_eq_gathering : finalizeWith run =
    (do
      gathering run
      let ctx ← lift get
      modify (placeDefault ctx.defaultDomain)
      completing ctx) := by
  rw [finalizeWith_eq, preparing, gathering]
  simp only [bind_assoc, pure_bind]

theorem Gathers.run_gathering {m ready : Module H} {ctx left : Context} {result : Except Fault Unit}
    (h : Gathers run m ctx result ready left) :
    ((gathering run).run.run m).run ctx = ((result, ready), left) := by
  have entered : ∀ {result cs left}, (finalizeAll run m.children).run ctx = ((result, cs), left) →
      ((finalizeChildren run).run.run { m with stage := .finalizing }).run ctx =
        ((result, { m with stage := .finalizing, children := cs }), left) :=
    run_finalizeChildren { m with stage := .finalizing } rfl
  unfold gathering
  refine (run_bind_ok rfl).trans ?_
  -- From here on each constructor holds the runs of the steps, up to the one that fails.
  cases h with
  | child first => exact run_bind_error (entered first)
  | plain first hooks =>
    refine (run_bind_ok (entered first)).trans ((run_bind_ok rfl).trans ?_)
    dsimp only
    rw [hooks]
    rfl
  | hook first hooks grew =>
    refine (run_bind_ok (entered first)).trans ((run_bind_ok rfl).trans ?_)
    dsimp only
    rw [hooks, Option.elim_some]
    exact (run_bind_ok rfl).trans (run_bind_error grew)
  | added first hooks grew second =>
    refine (run_bind_ok (entered first)).trans ((run_bind_ok rfl).trans ?_)
    dsimp only
    rw [hooks, Option.elim_some]
    exact (run_bind_ok rfl).trans ((run_bind_ok grew).trans (run_finalizeChildren _ rfl second))

namespace Gathers

variable {m ready : Module H} {ctx left : Context}

theorem run_error {f : Fault} (h : Gathers run m ctx (.error f) ready left) :
    ((finalizeWith run).run.run m).run ctx = ((.error f, ready), left) := by
  rw [finalizeWith_eq_gathering]
  exact run_bind_error h.run_gathering

theorem run_ok (h : Gathers run m ctx (.ok ()) ready left) :
    ((finalizeWith run).run.run m).run ctx =
      ((completing left).run.run (ready.placeDefault left.defaultDomain)).run left := by
  rw [finalizeWith_eq_gathering]
  refine (run_bind_ok h.run_gathering).trans ?_
  exact (run_bind_ok rfl).trans (run_bind_ok rfl)

end Gathers

theorem Gathers.completed {m ready : Module H} {ctx left : Context}
    (h : Gathers run m ctx (.ok ()) ready left) (unfinished : ready.stage = .finalizing) :
    ∃ result done, ((finalizeWith run).run.run m).run ctx = ((result, done), left) ∧
      (done.stage = .finalized ↔ result = .ok ()) ∧
      ∀ path limit, result ≠ .error (.hierarchyTooDeep path limit) := by
  rw [h.run_ok]
  apply run_completing
  rw [placeDefault_eq, unfinished]

/-! ### The recursion without a bound of its own -/

/-- The fault of finalizing a module that is not being built. -/
def known (ctx : Context) (name : String) : Fault :=
  .alreadyFinalized (if ctx.pathText.isEmpty then name else s!"{ctx.pathText}.{name}")

/-- Finalize a module, those inside it with `run`. -/
def visit (run : Finalizer H) (m : Module H) :
    StateM Context (Except Fault Unit × Module H) := do
  let ctx ← get
  if m.stage ≠ .building then
    pure (.error (known ctx m.name), m)
  else
    match ctx.enter m.name with
    | .error f => pure (.error f, m)
    | .ok inner => do
      set inner
      let result ← (finalizeWith run).run.run m
      modify Context.exit
      pure result

section Visit

variable {m : Module H} {ctx : Context}

theorem run_visit_of_deep (building : m.stage = .building) (deep : ctx.maxDepth ≤ ctx.depth) :
    (visit run m).run ctx = ((.error (ctx.tooDeep m.name), m), ctx) := by
  unfold visit
  refine (run_state_bind rfl).trans ?_
  rw [if_neg (by simp [building]), Context.enter, if_pos deep]
  rfl

theorem run_visit_inside (building : m.stage = .building) (fits : ctx.depth < ctx.maxDepth)
    {ended : Except Fault Unit × Module H} {left : Context}
    (ran : ((finalizeWith run).run.run m).run (ctx.inside m.name) = (ended, left)) :
    (visit run m).run ctx = (ended, left.exit) := by
  unfold visit
  refine (run_state_bind rfl).trans ?_
  rw [if_neg (by simp [building]), Context.enter, if_neg (Nat.not_le.mpr fits)]
  exact (run_state_bind rfl).trans ((run_state_bind ran).trans (run_state_bind rfl))

theorem run_visit_known (other : m.stage ≠ .building) :
    (visit run m).run ctx = ((.error (known ctx m.name), m), ctx) := by
  unfold visit
  refine (run_state_bind rfl).trans ?_
  rw [if_pos other]
  rfl

end Visit

end Outcomes

variable [Hooks H]

section Within

variable {m : Module H} {ctx : Context}

theorem run_finalizeWithin_zero (building : m.stage = .building) :
    (finalizeWithin 0 m).run ctx = ((.error (ctx.tooDeep m.name), m), ctx) := by
  unfold finalizeWithin
  refine (run_state_bind rfl).trans ?_
  rw [if_neg (by simp [building])]
  rfl

theorem run_finalizeWithin_known {room : Nat} (other : m.stage ≠ .building) :
    (finalizeWithin room m).run ctx = ((.error (known ctx m.name), m), ctx) := by
  unfold finalizeWithin
  refine (run_state_bind rfl).trans ?_
  rw [if_pos other]
  rfl

/-- With the room that the limit leaves, a module is visited. -/
theorem run_finalizeWithin_eq {room : Nat} (left : ctx.maxDepth - ctx.depth = room) :
    (finalizeWithin room m).run ctx = (visit (finalizeWithin (room - 1)) m).run ctx := by
  by_cases building : m.stage = .building
  · cases room with
    | zero =>
      rw [run_finalizeWithin_zero building, run_visit_of_deep building (by omega)]
    | succ room =>
      rcases ran : ((finalizeWith (finalizeWithin room)).run.run m).run (ctx.inside m.name) with
        ⟨ended, left⟩
      rw [run_finalizeWithin_succ building ran, Nat.add_sub_cancel,
        run_visit_inside building (by omega) ran]
  · rw [run_finalizeWithin_known building, run_visit_known building]

end Within

theorem run_finalize (m : Module H) (ctx : Context) :
    m.finalize.run ctx = (finalizeWithin (ctx.maxDepth - ctx.depth) m).run ctx :=
  run_state_bind rfl

/-- Finalizing `m` from the context `ctx` finalizes `k` from the context `outer` in turn, which is a
child or was added by the hook. -/
inductive Nests (m : Module H) (ctx : Context) (k : Module H) (outer : Context) : Prop
  | child {inner} : m.stage = .building → ctx.enter m.name = .ok inner →
    Calls finalize m.children inner k outer → Nests m ctx k outer
  | added {inner cs between hook grown hooked} : m.stage = .building →
    ctx.enter m.name = .ok inner →
    (finalizeAll finalize m.children).run inner = ((.ok (), cs), between) →
    m.hook = some hook →
    ((Hooks.run hook).run.run { m with stage := .finalizing, children := cs, hook := none }).run
      between = ((.ok (), grown), hooked) →
    Calls finalize grown.children hooked k outer → Nests m ctx k outer

/-! ### Trees that are too high -/

theorem height_le_of_ok {room : Nat} {m done : Module H} {ctx left : Context}
    (ran : (finalizeWithin room m).run ctx = ((.ok (), done), left)) : m.height ≤ room := by
  induction room generalizing m done ctx left with
  | zero =>
    obtain ⟨_, _, _, _, _, impossible, -⟩ := of_finalizeWithin_ok ran
    omega
  | succ room ih =>
    obtain ⟨_, _, _, _, _, same, prepared, -⟩ := of_finalizeWithin_ok ran
    cases same
    obtain ⟨_, _, all, -⟩ := of_preparing_ok prepared
    -- A hook only adds modules, so it does not matter here whether there is one.
    rw [height_eq]
    refine Nat.succ_le_succ (Submodule.heightOf_le_iff.mpr fun c hc unfinished => ?_)
    obtain ⟨outer, done, after, child⟩ := of_finalizeAll_ok all hc unfinished
    have bound := ih child
    rwa [height_named] at bound

/-- Without hooks, a tree that fits is not too deep anywhere. -/
theorem fits_of_height_le {room : Nat} {m : Module H} (hookless : m.Hookless)
    (fits : m.height ≤ room) (ctx : Context) (path : String) (limit : Nat) :
    ((finalizeWithin room m).run ctx).1.1 ≠ .error (.hierarchyTooDeep path limit) := by
  induction room generalizing m ctx with
  | zero =>
    rw [height_eq] at fits
    omega
  | succ room ih =>
    rw [height_eq, Nat.add_le_add_iff_right, Submodule.heightOf_le_iff] at fits
    by_cases building : m.stage = .building
    · obtain ⟨result, ready, left, h⟩ := exists_gathers (finalizeWithin room) m (ctx.inside m.name)
      cases h with
      | child first =>
        rw [run_finalizeWithin_succ building (Gathers.child first).run_error]
        rintro ⟨⟩
        -- The fault comes from a child, and there is room for that one.
        obtain ⟨c, hc, unfinished, outer, done, after, stopped⟩ := of_finalizeAll_error first
        have shallow := fits c hc unfinished
        rw [← height_named c.module (c.name.getD c.module.name)] at shallow
        refine ih (hookless.child hc _) shallow outer ?_
        rw [stopped]
      | plain first hooks =>
        obtain ⟨result, done, ran, -, shallow⟩ := (Gathers.plain first hooks).completed rfl
        rw [run_finalizeWithin_succ building ran]
        exact shallow path limit
      | hook _ hooks | added _ hooks =>
        rw [hookless.root] at hooks
        cases hooks
    · rw [run_finalizeWithin_known building]
      rintro ⟨⟩

/-- Each of these hooks gives a module without children a first child that has none either, is still
being built and has one of these hooks in turn. -/
def Regenerates (among : H → Prop) (named : String → Prop) : Prop :=
  ∀ h, among h → ∀ (m : Module H) ctx, m.children = [] → ∃ grown left c rest h',
    ((Hooks.run h).run.run m).run ctx = ((.ok (), grown), left) ∧ grown.children = c :: rest ∧
    c.module.stage = .building ∧ c.module.children = [] ∧ c.module.hook = some h' ∧ among h' ∧
    named (c.name.getD c.module.name)

/-! ### What a run depends on -/

variable [LawfulHooks H]

section Dependence

variable {run run' : Finalizer H} {m : Module H} {ctx : Context}

theorem Gathers.congr {m ready : Module H} {ctx left : Context} {result : Except Fault Unit}
    (agrees : Agrees run run' ctx) (h : Gathers run m ctx result ready left) :
    Gathers run' m ctx result ready left ∧ ready.stage = .finalizing ∧ ctx.Level left := by
  obtain ⟨same, level⟩ := finalizeAll_congr agrees m.children (.refl ctx)
  cases h with
  | child first =>
    rw [first] at same level
    exact ⟨.child same.symm, rfl, level⟩
  | plain first hooks =>
    rw [first] at same level
    exact ⟨.plain same.symm hooks, rfl, level⟩
  | @hook cs between hook f _ _ first hooks grew =>
    rw [first] at same level
    obtain ⟨stage, after⟩ := LawfulHooks.settled hook
      { m with stage := .finalizing, children := cs, hook := none } between
    rw [grew] at stage after
    exact ⟨.hook same.symm hooks grew, stage, level.trans after⟩
  | @added cs between hook grown hooked _ _ _ first hooks grew second =>
    rw [first] at same level
    obtain ⟨stage, after⟩ := LawfulHooks.settled hook
      { m with stage := .finalizing, children := cs, hook := none } between
    rw [grew] at stage after
    -- The hook leaves the level, so what it added is finalized there too.
    obtain ⟨same', level'⟩ := finalizeAll_congr agrees grown.children (level.trans after)
    rw [second] at same' level'
    exact ⟨.added same.symm hooks grew same'.symm, stage, level'⟩

/-- A module that has been entered depends on the calls inside it at its own level only. It stays
there, and it is finished exactly if all went well. -/
theorem finalizeWith_congr {ctx : Context} (agrees : Agrees run run' ctx) (m : Module H) :
    ∃ result done left, ((finalizeWith run).run.run m).run ctx = ((result, done), left) ∧
      ((finalizeWith run').run.run m).run ctx = ((result, done), left) ∧
      (done.stage = .finalized ↔ result = .ok ()) ∧ ctx.Level left := by
  obtain ⟨result, ready, left, h⟩ := exists_gathers run m ctx
  obtain ⟨h', stage, level⟩ := h.congr agrees
  cases result with
  | error f =>
    refine ⟨.error f, ready, left, h.run_error, h'.run_error, ?_, level⟩
    simp [stage]
  | ok _ =>
    -- Either way the module goes on from `ready`, and `run` is not called again.
    obtain ⟨result, done, ran, finished, -⟩ := h.completed stage
    exact ⟨result, done, left, ran, h'.run_ok.trans (h.run_ok.symm.trans ran), finished, level⟩

/-- A visit depends on the calls inside it one level down only. -/
theorem visit_congr (agrees : ctx.depth < ctx.maxDepth → Agrees run run' (ctx.inside m.name)) :
    (visit run m).run ctx = (visit run' m).run ctx ∧ ctx.Level ((visit run m).run ctx).2 := by
  by_cases building : m.stage = .building
  · rcases Nat.lt_or_ge ctx.depth ctx.maxDepth with fits | deep
    · obtain ⟨result, done, left, ran, ran', -, level⟩ := finalizeWith_congr (agrees fits) m
      rw [run_visit_inside building fits ran, run_visit_inside building fits ran']
      exact ⟨rfl, level.exit⟩
    · rw [run_visit_of_deep building deep, run_visit_of_deep building deep]
      exact ⟨rfl, .refl ctx⟩
  · rw [run_visit_known building, run_visit_known building]
    exact ⟨rfl, .refl ctx⟩

end Dependence

/-- One level down there is room for one level less. -/
theorem room_inside {ctx ctx' : Context} {name : String} (level : (ctx.inside name).Level ctx') :
    ctx'.maxDepth - ctx'.depth = ctx.maxDepth - ctx.depth - 1 := by
  have depth := level.depth_eq
  have limit : ctx'.maxDepth = ctx.maxDepth := level.2
  rw [Context.depth_inside] at depth
  omega

/-- Whatever comes of it, finalizing ends at the level where it started. -/
theorem level_finalizeWithin {room : Nat} (m : Module H) {ctx : Context}
    (left : ctx.maxDepth - ctx.depth = room) :
    ctx.Level ((finalizeWithin room m).run ctx).2 := by
  induction room generalizing m ctx with
  | zero =>
    rw [run_finalizeWithin_eq left]
    have none : ctx.depth < ctx.maxDepth →
        Agrees (finalizeWithin (H := H) 0) (finalizeWithin 0) (ctx.inside m.name) := by omega
    exact (visit_congr none).2
  | succ room ih =>
    rw [run_finalizeWithin_eq left]
    refine (visit_congr fun _ k ctx' level => ⟨rfl, level.trans (ih k ?_)⟩).2
    rw [room_inside level, left, Nat.add_sub_cancel]

section Solutions

variable {run : Finalizer H}

theorem run_finalize_eq {m : Module H} {ctx : Context}
    (same : ∀ k ctx', (ctx.inside m.name).Level ctx' → (run k).run ctx' = k.finalize.run ctx') :
    m.finalize.run ctx = (visit run m).run ctx := by
  rw [run_finalize, run_finalizeWithin_eq rfl]
  refine (visit_congr fun _ k ctx' level => ⟨?_, ?_⟩).1
  · rw [same k ctx' level, run_finalize, room_inside level]
  · exact level.trans (level_finalizeWithin k (room_inside level))

/-- Finalizing is the one solution of the recursion. -/
theorem solves_iff : (∀ m, run m = visit run m) ↔ run = finalize := by
  constructor
  · intro solves
    -- Calls one level down have less room, and the limit ends them.
    have same : ∀ room m (ctx : Context), ctx.maxDepth - ctx.depth = room →
        (run m).run ctx = m.finalize.run ctx := by
      intro room
      induction room with
      | zero =>
        intro m ctx left
        rw [solves m, run_finalize, run_finalizeWithin_eq rfl]
        refine (visit_congr fun fits => absurd fits (by omega)).1
      | succ room ih =>
        intro m ctx left
        rw [solves m]
        refine (run_finalize_eq fun k ctx' level => ih k ctx' ?_).symm
        rw [room_inside level, left, Nat.add_sub_cancel]
    funext m ctx
    exact same _ m ctx rfl
  · rintro rfl m
    funext ctx
    exact run_finalize_eq fun _ _ _ => rfl

end Solutions

/-! ### How deep calls nest -/

theorem of_enter_ok {ctx inner : Context} {name : String} (h : ctx.enter name = .ok inner) :
    ctx.depth < ctx.maxDepth ∧ inner = ctx.inside name := by
  rw [Context.enter] at h
  split at h
  next => cases h
  next fits =>
    cases h
    exact ⟨Nat.not_le.mp fits, rfl⟩

theorem agrees_finalize (outer : Context) :
    Agrees (finalize : Module H → _) finalize outer := by
  intro k ctx level
  refine ⟨rfl, level.trans ?_⟩
  rw [run_finalize]
  exact level_finalizeWithin k rfl

theorem level_finalizeAll {cs done : List (Submodule H)} {ctx left : Context}
    {result : Except Fault Unit}
    (all : (finalizeAll finalize cs).run ctx = ((result, done), left)) : ctx.Level left := by
  have level := (finalizeAll_congr (agrees_finalize ctx) cs (.refl ctx)).2
  rwa [all] at level

theorem Calls.level {cs : List (Submodule H)} {ctx outer : Context} {k : Module H}
    (calls : Calls finalize cs ctx k outer) : ctx.Level outer := by
  obtain ⟨before, c, after, done, -, -, -, reached⟩ := calls
  exact level_finalizeAll reached

/-- A call inside another is one level down, and there was room for that. -/
theorem Nests.level {m k : Module H} {ctx outer : Context} (h : Nests m ctx k outer) :
    ctx.depth < ctx.maxDepth ∧ (ctx.inside m.name).Level outer := by
  cases h with
  | child _ entered calls =>
    obtain ⟨fits, rfl⟩ := of_enter_ok entered
    exact ⟨fits, calls.level⟩
  | @added _ cs between hook grown hooked _ entered first _ grew calls =>
    obtain ⟨fits, rfl⟩ := of_enter_ok entered
    have hooked := (LawfulHooks.settled hook
      { m with stage := .finalizing, children := cs, hook := none } between).2
    rw [grew] at hooked
    exact ⟨fits, ((level_finalizeAll first).trans hooked).trans calls.level⟩

theorem wellFounded_nests :
    WellFounded fun inner outer : Module H × Context => Nests outer.1 outer.2 inner.1 inner.2 := by
  -- The room that is left at a call bounds the calls inside it.
  refine Subrelation.wf ?_ (measure fun call : Module H × Context =>
    call.2.maxDepth - call.2.depth).wf
  intro inner outer nests
  obtain ⟨fits, level⟩ := nests.level
  have room := room_inside level
  change inner.2.maxDepth - inner.2.depth < outer.2.maxDepth - outer.2.depth
  omega

/-- Modules that regenerate each other go down until there is no room. -/
theorem Regenerates.tooDeep {among : H → Prop} {named : String → Prop}
    (regenerates : Regenerates among named) (room : Nat) {m : Module H} {h : H} (ctx : Context)
    (building : m.stage = .building) (childless : m.children = []) (hook : m.hook = some h)
    (one : among h) :
    ∃ names, names.length = room ∧ (∀ name ∈ names, named name) ∧
      ((finalizeWithin room m).run ctx).1.1 = .error (.hierarchyTooDeep
        (".".intercalate (ctx.path ++ m.name :: names)) ctx.maxDepth) := by
  induction room generalizing m h ctx with
  | zero =>
    refine ⟨[], rfl, fun _ h => absurd h List.not_mem_nil, ?_⟩
    rw [run_finalizeWithin_zero building]
    rfl
  | succ room ih =>
    let inner := ctx.inside m.name
    have first : (finalizeAll (finalizeWithin room) m.children).run inner =
        ((.ok (), []), inner) := by
      rw [childless]
      rfl
    obtain ⟨grown, hooked, c, rest, h', grew, children, building', childless', hook', one', name⟩ :=
      regenerates h one { m with stage := .finalizing, children := [], hook := none } inner rfl
    -- The hook has left the level, and the child does the same one level down.
    have level := (LawfulHooks.settled h
      { m with stage := .finalizing, children := [], hook := none } inner).2
    rw [grew] at level
    let again := { c.module with name := c.name.getD c.module.name }
    obtain ⟨names, length, all, deeper⟩ := ih (m := again) hooked building' childless' hook' one'
    rcases child : (finalizeWithin room again).run hooked with ⟨⟨result, done⟩, left⟩
    rw [child] at deeper
    cases deeper
    have second : (finalizeAll (finalizeWithin room) grown.children).run hooked =
        ((.error (.hierarchyTooDeep (".".intercalate (hooked.path ++ again.name :: names))
          hooked.maxDepth), { c with module := done } :: rest), left) := by
      rw [children, finalizeAll, if_neg (by simp [building'])]
      exact run_state_bind child
    refine ⟨again.name :: names, congrArg (· + 1) length, List.forall_mem_cons.mpr ⟨name, all⟩, ?_⟩
    rw [List.append_cons ctx.path m.name,
      run_finalizeWithin_succ building (Gathers.added first hook grew second).run_error, level.1,
      level.2]
    rfl

/-- A module that is entered is left again, and it is finished exactly if all went well. -/
theorem exists_finalize_eq {m : Module H} (building : m.stage = .building) (ctx : Context) :
    ∃ result done left, m.finalize.run ctx = ((result, done), left) ∧ ctx.Level left ∧
      (done.stage = .finalized ↔ result = .ok ()) := by
  rw [solves_iff.mpr rfl m]
  rcases Nat.lt_or_ge ctx.depth ctx.maxDepth with fits | deep
  · obtain ⟨result, done, left, ran, -, finished, level⟩ :=
      finalizeWith_congr (agrees_finalize (ctx.inside m.name)) m
    exact ⟨result, done, left.exit, run_visit_inside building fits ran, level.exit, finished⟩
  · refine ⟨_, _, _, run_visit_of_deep building deep, .refl ctx, ?_⟩
    simp [building]

/-- Finalizing ends for every module and every context. It solves a recursion that is bounded by the
limit of the context alone, and nothing else does; each call is one level below the call around it,
and none starts beyond the limit. On every outcome the context is left inside the same modules, and
the module is finished exactly if there is no fault. A tree that is too high for the limit,
finalized modules aside, does not get finished; one without hooks that is not too high is too deep
nowhere; and a module without children whose hook is one of those that regenerate themselves or each
other is too deep where the limit says. -/
theorem finalize_bounded :
    (∀ run : Finalizer H, (∀ m, run m = visit run m) ↔ run = finalize) ∧
    (WellFounded fun inner outer : Module H × Context => Nests outer.1 outer.2 inner.1 inner.2) ∧
    (∀ (m : Module H) ctx k outer, Nests m ctx k outer →
      outer.path = ctx.path ++ [m.name] ∧ outer.maxDepth = ctx.maxDepth ∧
        outer.depth ≤ outer.maxDepth) ∧
    ∀ m : Module H, m.stage = .building → ∀ ctx, ∃ result done left,
      m.finalize.run ctx = ((result, done), left) ∧ left.path = ctx.path ∧
      (done.stage = .finalized ↔ result = .ok ()) ∧
      (ctx.maxDepth < ctx.depth + m.height → result ≠ .ok ()) ∧
      (m.Hookless → ctx.depth + m.height ≤ ctx.maxDepth →
        ∀ path limit, result ≠ .error (.hierarchyTooDeep path limit)) ∧
      ∀ among named, Regenerates among named → m.children = [] →
        (∃ h, m.hook = some h ∧ among h) →
        ∃ names, names.length = ctx.maxDepth - ctx.depth ∧ (∀ name ∈ names, named name) ∧
          result = .error (.hierarchyTooDeep (".".intercalate (ctx.path ++ m.name :: names))
            ctx.maxDepth) := by
  refine ⟨fun run => solves_iff, wellFounded_nests, ?_, ?_⟩
  · intro m ctx k outer nests
    obtain ⟨fits, level⟩ := nests.level
    refine ⟨level.1, level.2, ?_⟩
    rw [level.depth_eq, level.2, Context.depth_inside]
    exact fits
  · intro m building ctx
    obtain ⟨result, done, left, ran, level, finished⟩ := exists_finalize_eq building ctx
    have within : (finalizeWithin (ctx.maxDepth - ctx.depth) m).run ctx =
        ((result, done), left) := (run_finalize m ctx).symm.trans ran
    refine ⟨result, done, left, ran, level.1, finished, ?_, ?_, ?_⟩
    · rintro high rfl
      have bound := height_le_of_ok within
      have positive := m.height_eq
      omega
    · intro hookless fits path limit
      have shallow := fits_of_height_le hookless (Nat.le_sub_of_add_le' fits) ctx path limit
      rwa [within] at shallow
    · rintro among named regenerates childless ⟨h, hook, one⟩
      have deep := regenerates.tooDeep (ctx.maxDepth - ctx.depth) ctx building childless hook one
      rwa [within] at deep

theorem regenerates_regenerate : Regenerates (· = Hook.regenerate) (· = "again") := by
  rintro h rfl m ctx childless
  refine ⟨{ m with children := [⟨some "again", { empty "again" with hook := some .regenerate }⟩] },
    ctx, _, [], .regenerate, ?_, rfl, rfl, rfl, rfl, rfl, rfl⟩
  obtain ⟨_, _, _, children, _, _, _⟩ := m
  cases childless
  rfl

open Sample

namespace Sample

/-- A module that regenerates itself. -/
def runaway : Module Hook := { empty "top" with hook := some .regenerate }

/-- The context `atRoot` with another limit. -/
def limited (maxDepth : Nat) : Context := { atRoot with maxDepth }

end Sample

/-- A module that regenerates itself, and a tree of three levels around the limit. -/
theorem nested_bounded :
    ((runaway.finalize.run (limited 3)).1.1 =
      .error (.hierarchyTooDeep "top.again.again.again" 3)) ∧
    (nested.Hookless ∧ nested.height = 3) ∧
    (nested.finalize.run (limited 2)).1.1 ≠ .ok () ∧
    ∀ path limit,
      (nested.finalize.run (limited 3)).1.1 ≠ .error (.hierarchyTooDeep path limit) := by
  have hookless : nested.Hookless := by decide +kernel
  have height : nested.height = 3 := by decide +kernel
  obtain ⟨-, -, -, bounded⟩ := finalize_bounded (H := Hook)
  obtain ⟨_, _, _, ran, -, -, -, -, regenerates⟩ := bounded runaway rfl (limited 3)
  obtain ⟨_, _, _, ran', -, -, high, -, -⟩ := bounded nested rfl (limited 2)
  obtain ⟨_, _, _, ran'', -, -, -, fits, -⟩ := bounded nested rfl (limited 3)
  rw [ran, ran', ran'']
  obtain ⟨names, length, again, deep⟩ :=
    regenerates _ _ regenerates_regenerate rfl ⟨_, rfl, rfl⟩
  obtain rfl : names = ["again", "again", "again"] := List.eq_replicate_iff.mpr ⟨length, again⟩
  refine ⟨deep, ⟨hookless, height⟩, high ?_, fits hookless ?_⟩
  · rw [height]
    decide
  · rw [height]
    decide

end Module

end Gateware
