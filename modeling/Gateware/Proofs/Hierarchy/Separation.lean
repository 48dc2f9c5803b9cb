import Gateware.Proofs.Frame
import Gateware.Proofs.Hierarchy.Flattening
import Gateware.Proofs.Hierarchy.Renaming

/-!
# Separated clock domains

When a module takes over its finalized children, the clock domains that several of them declare are
renamed in the named children. This module says for every module of a tree, those that hooks add
included, what its named children's domains become in it.

## Main results

`finalize_separates`: in a tree that is finalized, every named child of every module goes into the
module with its domains renamed by a function, and the function gives two domains one name exactly
if a domain that the child declares captures both.

`nested_merges`: so two domains of a child can become one, where the child uses, without declaring
it, the name that one of its own domains is given.

## Proof strategy

Finalizing a module is taken apart into what happens before its children are taken over and what
happens then (`finalizeWith_eq`). If the whole run ends well, then so does every call inside it
(`Joins.succeeds`), and with it the check for repeated domains. Decorators rename domains, so what
passes the check after them had distinct names before them.
-/
namespace Gateware

variable {H : Type}

/-- A child in which the domains of a list are renamed, if it has a name to tell them apart. -/
def Submodule.separated (ds : List String) (c : Submodule H) : Submodule H :=
  let netlist :=
    c.name.elim c.module.netlist fun child => ds.foldl (Module.moved child) c.module.netlist
  { c with module := { c.module with netlist } }

theorem Submodule.separated_eq_self {ds : List String} {c : Submodule H}
    (same : ∀ child, ds.foldl (Module.moved child) c.module.netlist = c.module.netlist) :
    c.separated ds = c := by
  obtain ⟨name, ⟨_, _, _, _, _, _, _⟩⟩ := c
  cases name with
  | none => rfl
  | some child => rw [separated, Option.elim_some, same]

namespace Module

/-! ### Separating the children -/

theorem domain?_eq_none_iff {n : Netlist} {d : String} : n.domain? d = none ↔ d ∉ n.names := by
  simp [Netlist.domain?, Netlist.names]

theorem separate_eq_ok {path d : String} {c c' : Submodule H} (h : separate path d c = .ok c') :
    c' = c.separated [d] := by
  unfold separate at h
  split at h
  next absent =>
    cases h
    refine (Submodule.separated_eq_self fun child => ?_).symm
    rw [List.foldl_cons, List.foldl_nil, moved, if_neg (domain?_eq_none_iff.mp absent)]
  next => cases h
  next found named =>
    cases h
    have present : d ∈ c.module.netlist.names := by
      by_contra absent
      rw [domain?_eq_none_iff.mpr absent] at found
      cases found
    obtain ⟨name, module⟩ := c
    obtain rfl : name = _ := named
    simp only [Submodule.separated, Option.elim_some, List.foldl_cons, List.foldl_nil, moved,
      if_pos present]
    rfl

theorem separated_separated (d : String) (ds : List String) (c : Submodule H) :
    (c.separated [d]).separated ds = c.separated (d :: ds) := by
  obtain ⟨name, module⟩ := c
  cases name <;> rfl

theorem mapM_separate {path d : String} {cs cs' : List (Submodule H)}
    (h : cs.mapM (separate path d) = .ok cs') : cs' = cs.map (Submodule.separated [d]) := by
  have each := mapM_ok_iff.mp h
  induction each with
  | nil => rfl
  | cons first _ ih => rw [List.map_cons, separate_eq_ok first, ← ih (mapM_ok_iff.mpr ‹_›)]

/-- Where the children can be separated, each is separated on its own. -/
theorem separateAll_eq_ok {path : String} {own : Netlist} {cs cs' : List (Submodule H)}
    (h : separateAll path own cs = .ok cs') :
    cs' = cs.map (Submodule.separated (collisions own cs)) := by
  unfold separateAll at h
  generalize collisions own cs = ds at h ⊢
  induction ds generalizing cs with
  | nil =>
    cases h
    exact (List.map_id'' (fun c => Submodule.separated_eq_self fun _ => rfl) _).symm
  | cons d ds ih =>
    rw [List.foldlM_cons, bind_eq_ok] at h
    obtain ⟨between, first, rest⟩ := h
    rw [ih rest, mapM_separate first, List.map_map]
    exact List.map_congr_left fun c _ => separated_separated d ds c

theorem nodup_collisions (own : Netlist) (cs : List (Submodule H)) : (collisions own cs).Nodup :=
  ((OrdSet.unionOver _ id).increasing.nodup).filter _

end Module

/-! ### Names under decorators -/

theorem Netlist.exists_names_foldl_renameDomain {α : Type} (old new : α → String) (xs : List α)
    (n : Netlist) : ∃ f,
      (xs.foldl (fun n x => n.renameDomain (old x) (new x)) n).names = n.names.map f := by
  induction xs generalizing n with
  | nil => exact ⟨id, (List.map_id _).symm⟩
  | cons x xs ih =>
    obtain ⟨f, rest⟩ := ih (n.renameDomain (old x) (new x))
    refine ⟨f ∘ swapName (old x) (new x), ?_⟩
    rw [List.foldl_cons, rest, ← List.map_map]
    exact congrArg (List.map f) (n.renamed_renameDomains _).names_eq

/-- A decorator gives the declared domains other names, if anything. -/
theorem Decorator.exists_names_apply (n : Netlist) (d : Decorator) :
    ∃ f, (apply n d).names = n.names.map f := by
  cases d with
  | clockEnable | reset => exact ⟨id, (List.map_id _).symm⟩
  | rename names =>
    rw [apply, renameAll]
    obtain ⟨f, first⟩ := Netlist.exists_names_foldl_renameDomain
      (fun x : (String × String) × Nat => x.1.1) (fun x => standIn x.2)
      (names.entries.zipIdx.filter fun x => x.1.1 ≠ x.1.2) n
    obtain ⟨g, second⟩ := Netlist.exists_names_foldl_renameDomain
      (fun x : (String × String) × Nat => standIn x.2) (fun x => x.1.2)
      (names.entries.zipIdx.filter fun x => x.1.1 ≠ x.1.2) _
    exact ⟨g ∘ f, by rw [second, first, List.map_map]⟩

theorem Decorator.nodup_names_of_apply {ds : List Decorator} {n : Netlist}
    (distinct : (ds.foldl apply n).names.Nodup) : n.names.Nodup := by
  induction ds generalizing n with
  | nil => exact distinct
  | cons d ds ih =>
    obtain ⟨f, names⟩ := exists_names_apply n d
    have before := ih distinct
    rw [names] at before
    exact before.of_map _

namespace Module

/-! ### Runs that end well -/

/-- If a sequence ends well, so do its steps. -/
theorem of_run_bind_ok {α β : Type} {x : Finalizing H α} {k : α → Finalizing H β} {m m'' : Module H}
    {ctx ctx'' : Context} {b : β} (h : ((x >>= k).run.run m).run ctx = ((.ok b, m''), ctx'')) :
    ∃ a m' ctx', (x.run.run m).run ctx = ((.ok a, m'), ctx') ∧
      ((k a).run.run m').run ctx' = ((.ok b, m''), ctx'') := by
  rcases ran : (x.run.run m).run ctx with ⟨⟨result, m'⟩, ctx'⟩
  cases result with
  | error f => cases (run_bind_error ran).symm.trans h
  | ok a => exact ⟨a, m', ctx', rfl, (run_bind_ok ran).symm.trans h⟩

section Calls

variable (run : Finalizer H)

/-- Finalize the children and let the hook do its work; then the module holds all its own logic. -/
def preparing [Hooks H] : Finalizing H Context := do
  modify fun m => { m with stage := .finalizing }
  finalizeChildren run
  let m ← get
  m.hook.elim (pure ()) fun hook => do
    set { m with hook := none }
    Hooks.run hook
    finalizeChildren run
  let ctx ← lift get
  modify (placeDefault ctx.defaultDomain)
  return ctx

/-- Take over the finalized children. -/
def completing (ctx : Context) : Finalizing H Unit := do
  let m ← get
  let children ← separateAll ctx.pathText m.netlist m.children
  modify (assemble · children)
  (← get).netlist.checkDomains
  modify fun m => { m with stage := .finalized }

theorem finalizeWith_eq [Hooks H] : finalizeWith run = preparing run >>= completing := by
  unfold finalizeWith preparing
  simp only [bind_assoc, pure_bind]
  refine bind_congr fun _ => bind_congr fun _ => bind_congr fun m => ?_
  cases m.hook with
  | none => rfl
  | some hook =>
    simp only [Option.elim_some, bind_assoc]
    rfl

/-- In finalizing a list of children with `run`, the module `k` is finalized when the context is
`outer`. -/
def Calls (cs : List (Submodule H)) (ctx : Context) (k : Module H) (outer : Context) : Prop :=
  ∃ before c after done, cs = before ++ c :: after ∧ c.module.stage ≠ .finalized ∧
    k = { c.module with name := c.name.getD c.module.name } ∧
    (finalizeAll run before).run ctx = ((.ok (), done), outer)

variable {run} {cs cs' : List (Submodule H)} {ctx ctx' : Context}

/-- If all children are finalized, then so are the first, unless it was so already, and the rest. -/
theorem of_finalizeAll_cons_ok {c : Submodule H}
    (all : (finalizeAll run (c :: cs)).run ctx = ((.ok (), cs'), ctx')) :
    (c.module.stage = .finalized ∧
      ∃ rest, (finalizeAll run cs).run ctx = ((.ok (), rest), ctx')) ∨
    (c.module.stage ≠ .finalized ∧ ∃ done between rest,
      (run { c.module with name := c.name.getD c.module.name }).run ctx =
        ((.ok (), done), between) ∧
      (finalizeAll run cs).run between = ((.ok (), rest), ctx')) := by
  rw [finalizeAll] at all
  split at all
  next finished =>
    rcases later : (finalizeAll run cs).run ctx with ⟨⟨result, rest⟩, left⟩
    rw [run_state_bind later] at all
    cases all
    exact .inl ⟨finished, rest, rfl⟩
  next unfinished =>
    rcases first : (run { c.module with name := c.name.getD c.module.name }).run ctx with
      ⟨⟨result, done⟩, between⟩
    rw [run_state_bind first] at all
    cases result with
    | error f => cases all
    | ok _ =>
      rcases later : (finalizeAll run cs).run between with ⟨⟨result, rest⟩, left⟩
      rw [run_state_bind later] at all
      cases all
      exact .inr ⟨unfinished, done, between, rest, rfl, later⟩

theorem Calls.succeeds {k : Module H} {outer : Context} (calls : Calls run cs ctx k outer)
    (all : (finalizeAll run cs).run ctx = ((.ok (), cs'), ctx')) :
    ∃ done left, (run k).run outer = ((.ok (), done), left) := by
  obtain ⟨before, c, after, done, rfl, unfinished, rfl, reached⟩ := calls
  -- Both runs go through the children before `c` in the same way.
  induction before generalizing ctx cs' done with
  | nil =>
    cases reached
    rcases of_finalizeAll_cons_ok all with ⟨finished, -⟩ | ⟨-, done, between, rest, ran, -⟩
    · exact absurd finished unfinished
    · exact ⟨done, between, ran⟩
  | cons b before ih =>
    rcases of_finalizeAll_cons_ok reached with ⟨finished, rest, later⟩ |
      ⟨waiting, b', between, rest, ran, later⟩
    · rcases of_finalizeAll_cons_ok all with ⟨-, rest', later'⟩ | ⟨waiting, -⟩
      · exact ih rest later' later
      · exact absurd finished waiting
    · rcases of_finalizeAll_cons_ok all with ⟨finished, -⟩ | ⟨-, b'', between', rest', ran', later'⟩
      · exact absurd finished waiting
      · cases ran.symm.trans ran'
        exact ih rest later' later

theorem of_finalizeChildren_ok {m m' : Module H}
    (ran : ((finalizeChildren run).run.run m).run ctx = ((.ok (), m'), ctx')) :
    ∃ cs, (finalizeAll run m.children).run ctx = ((.ok (), cs), ctx') ∧
      m' = { m with children := cs } := by
  rcases all : (finalizeAll run m.children).run ctx with ⟨⟨result, cs⟩, left⟩
  cases (run_finalizeChildren m rfl all).symm.trans ran
  exact ⟨cs, rfl, rfl⟩

/-- What has ended well by the time a module is ready to take over its children. -/
theorem of_preparing_ok [Hooks H] {m ready : Module H} {entered : Context}
    (ran : ((preparing run).run.run m).run ctx = ((.ok entered, ready), ctx')) :
    ∃ cs between, (finalizeAll run m.children).run ctx = ((.ok (), cs), between) ∧
      ∀ hook, m.hook = some hook → ∃ grown hooked cs' left,
        ((Hooks.run hook).run.run { m with stage := .finalizing, children := cs, hook := none }).run
          between = ((.ok (), grown), hooked) ∧
        (finalizeAll run grown.children).run hooked = ((.ok (), cs'), left) := by
  unfold preparing at ran
  obtain ⟨_, _, _, marked, ran⟩ := of_run_bind_ok ran
  cases marked
  -- The children come first, and the hook sees them finalized.
  obtain ⟨_, _, between, first, ran⟩ := of_run_bind_ok ran
  obtain ⟨cs, all, rfl⟩ := of_finalizeChildren_ok first
  refine ⟨cs, between, all, fun hook hooks => ?_⟩
  obtain ⟨_, _, _, got, ran⟩ := of_run_bind_ok ran
  cases got
  obtain ⟨_, _, _, hooked, -⟩ := of_run_bind_ok ran
  dsimp only at hooked
  rw [hooks, Option.elim_some] at hooked
  obtain ⟨_, _, _, taken, hooked⟩ := of_run_bind_ok hooked
  cases taken
  obtain ⟨_, grown, after, grew, second⟩ := of_run_bind_ok hooked
  obtain ⟨cs', again, -⟩ := of_finalizeChildren_ok second
  exact ⟨grown, after, cs', _, grew, again⟩

end Calls

theorem of_run_except_ok {α : Type} {x : Except Fault α} {a : α} {m m' : Module H}
    {ctx ctx' : Context}
    (ran : ((liftM x : Finalizing H α).run.run m).run ctx = ((.ok a, m'), ctx')) :
    x = .ok a ∧ m' = m ∧ ctx' = ctx := by
  cases x <;> cases ran
  exact ⟨rfl, rfl, rfl⟩

theorem netlist_assemble (m : Module H) (children : List (Submodule H)) :
    (m.assemble children).netlist = m.decorators.foldl Decorator.apply
      (.sum (m.netlist :: children.map (·.module.netlist))) := by
  rw [Netlist.sum_cons, ← Netlist.foldl_append, List.foldl_map]
  rfl

/-- The finalized children of a module as they go into it. -/
def taken (m : Module H) : List (Submodule H) :=
  m.children.map (Submodule.separated (collisions m.netlist m.children))

/-- What a module has become once its children are taken over. -/
theorem of_completing_ok {ready done : Module H} {entered ctx ctx' : Context}
    (ran : ((completing entered).run.run ready).run ctx = ((.ok (), done), ctx')) :
    done.netlist = ready.decorators.foldl Decorator.apply
      (.sum (ready.netlist :: ready.taken.map (·.module.netlist))) ∧ done.netlist.names.Nodup := by
  unfold completing at ran
  obtain ⟨_, _, _, got, ran⟩ := of_run_bind_ok ran
  cases got
  obtain ⟨children, _, _, separated, ran⟩ := of_run_bind_ok ran
  obtain ⟨separates, rfl, rfl⟩ := of_run_except_ok separated
  obtain rfl := separateAll_eq_ok separates
  obtain ⟨_, _, _, assembled, ran⟩ := of_run_bind_ok ran
  cases assembled
  obtain ⟨_, _, _, got, ran⟩ := of_run_bind_ok ran
  cases got
  obtain ⟨_, _, _, checked, ended⟩ := of_run_bind_ok ran
  obtain ⟨passes, rfl, rfl⟩ := of_run_except_ok checked
  cases ended
  exact ⟨netlist_assemble .., Netlist.checkDomains_ok_iff.mp passes⟩

/-- The domains that a child declares still have distinct names once it is taken over. -/
theorem nodup_names_taken {m : Module H}
    (distinct : (Netlist.sum (m.netlist :: m.taken.map (·.module.netlist))).names.Nodup)
    {c : Submodule H} (hc : c ∈ m.taken) : c.module.netlist.names.Nodup := by
  rw [Netlist.names, Netlist.domains_sum, List.map_flatMap] at distinct
  exact (List.nodup_flatMap.mp distinct).1 _
    (List.mem_cons_of_mem _ (List.mem_map_of_mem hc))

/-! ### Every module of a tree -/

variable [Hooks H]

/-- In finalizing `m` from the context `ctx` with room for `room` levels, `k` is finalized from the
context `outer` with room for `below` levels. It is `m` itself, or a module inside it, or one that a
hook adds. -/
inductive Joins : Nat → Module H → Context → Nat → Module H → Context → Prop
  | root {room m ctx} : Joins room m ctx room m ctx
  | child {room m ctx c inner below k outer} :
    Calls (finalizeWithin room) m.children (ctx.inside m.name) c inner →
    Joins room c inner below k outer → Joins (room + 1) m ctx below k outer
  | added {room m ctx cs between hook grown hooked c inner below k outer} :
    (finalizeAll (finalizeWithin room) m.children).run (ctx.inside m.name) =
      ((.ok (), cs), between) →
    m.hook = some hook →
    ((Hooks.run hook).run.run { m with stage := .finalizing, children := cs, hook := none }).run
      between = ((.ok (), grown), hooked) →
    Calls (finalizeWithin room) grown.children hooked c inner →
    Joins room c inner below k outer → Joins (room + 1) m ctx below k outer

/-- A module that is finalized had not been, and there was room for it. -/
theorem of_finalizeWithin_ok {room : Nat} {m done : Module H} {ctx left : Context}
    (ran : (finalizeWithin room m).run ctx = ((.ok (), done), left)) :
    ∃ below entered ready between inner, room = below + 1 ∧
      ((preparing (finalizeWithin below)).run.run m).run (ctx.inside m.name) =
        ((.ok entered, ready), between) ∧
      ((completing entered).run.run ready).run between = ((.ok (), done), inner) := by
  unfold finalizeWithin at ran
  rw [run_state_bind (x := get) (s := ctx) rfl] at ran
  split at ran
  next => cases ran
  next =>
    cases room with
    | zero => cases ran
    | succ below =>
      rcases inside : ((finalizeWith (finalizeWithin below)).run.run m).run (ctx.inside m.name) with
        ⟨result, inner⟩
      have ended : (result, inner.exit) = ((.ok (), done), left) :=
        ((run_state_bind rfl).trans ((run_state_bind inside).trans (run_state_bind rfl))).symm.trans
          ran
      cases ended
      rw [finalizeWith_eq] at inside
      obtain ⟨entered, ready, between, prepared, completed⟩ := of_run_bind_ok inside
      exact ⟨below, entered, ready, between, inner, rfl, prepared, completed⟩

/-- In a tree that is finalized every module is. -/
theorem Joins.succeeds {room below : Nat} {m k : Module H} {ctx outer : Context}
    (joins : Joins room m ctx below k outer)
    (ran : ∃ done left, (finalizeWithin room m).run ctx = ((.ok (), done), left)) :
    ∃ done left, (finalizeWithin below k).run outer = ((.ok (), done), left) := by
  induction joins with
  | root => exact ran
  | child calls _ ih =>
    obtain ⟨done, left, ran⟩ := ran
    obtain ⟨_, _, _, _, _, room, prepared, -⟩ := of_finalizeWithin_ok ran
    cases room
    obtain ⟨_, _, all, -⟩ := of_preparing_ok prepared
    exact ih (calls.succeeds all)
  | added all hooks grew calls _ ih =>
    obtain ⟨done, left, ran⟩ := ran
    obtain ⟨_, _, _, _, _, room, prepared, -⟩ := of_finalizeWithin_ok ran
    cases room
    obtain ⟨_, _, all', hooked⟩ := of_preparing_ok prepared
    cases all.symm.trans all'
    obtain ⟨_, _, _, _, grew', again⟩ := hooked _ hooks
    cases grew.symm.trans grew'
    exact ih (calls.succeeds again)

/-- In a tree that is finalized, every module `k` comes to be `ready`, with all its logic and its
finalized children, and then takes these over: its netlist is the sum of its own and theirs, as the
decorators change it. A child with a name goes in with its domains renamed, in statements,
references, cells and declarations alike. Exactly those of its domains become one that a domain of
the child captures. -/
theorem finalize_separates {m done : Module H} {ctx left : Context}
    (finalized : m.finalize.run ctx = ((.ok (), done), left))
    {room : Nat} {k : Module H} {outer : Context}
    (joins : Joins (ctx.maxDepth - ctx.depth) m ctx room k outer) :
    ∃ below entered ready between whole after,
      room = below + 1 ∧
      ((preparing (finalizeWithin below)).run.run k).run (outer.inside k.name) =
        ((.ok entered, ready), between) ∧
      (finalizeWithin room k).run outer = ((.ok (), whole), after) ∧
      whole.netlist = ready.decorators.foldl Decorator.apply
        (.sum (ready.netlist :: ready.taken.map (·.module.netlist))) ∧
      ∀ c ∈ ready.children, ∀ child, c.name = some child →
        let collided := collisions ready.netlist ready.children
        let declared := c.module.netlist.names
        c.module.netlist.Renamed (finalName child collided declared)
          (c.separated collided).module.netlist ∧
        ∀ e e', finalName child collided declared e = finalName child collided declared e' ↔
          e = e' ∨ ∃ d ∈ declared,
            Captures child collided declared d e ∧ Captures child collided declared d e' := by
  -- The module is finalized because the whole tree is.
  have started : (finalizeWithin (ctx.maxDepth - ctx.depth) m).run ctx = ((.ok (), done), left) :=
    (run_state_bind rfl).symm.trans finalized
  obtain ⟨whole, after, ran⟩ := joins.succeeds ⟨done, left, started⟩
  obtain ⟨below, entered, ready, between, inner, rfl, prepared, completed⟩ :=
    of_finalizeWithin_ok ran
  obtain ⟨netlist, distinct⟩ := of_completing_ok completed
  refine ⟨below, entered, ready, between, whole, after, rfl, prepared, ran, netlist, ?_⟩
  intro c hc child named collided declared
  have renamed : c.module.netlist.Renamed (finalName child collided declared)
      (c.separated collided).module.netlist := by
    rw [Submodule.separated, named]
    exact renamed_foldl_moved child collided c.module.netlist
  refine ⟨renamed, finalName_eq_iff child (nodup_collisions ..) ?_⟩
  -- The check for repeated domains has passed, so the child's domains have distinct names.
  rw [netlist] at distinct
  have names := nodup_names_taken (Decorator.nodup_names_of_apply distinct)
    (List.mem_map_of_mem hc)
  rwa [renamed.names_eq] at names

open Sample

namespace Sample

/-- A child that declares a domain and uses, without declaring it, the name which that domain is
given. -/
def worker : Submodule Hook := ⟨some "c", ofNetlist "c" {
  sync := .ofList [("c_sys", [mark 2]), ("sys", [mark 1])], domains := [clock "sys"] }⟩

def bridge : Module Hook := { ofNetlist "m" { domains := [clock "sys"] } with children := [worker] }

/-- The domain that `worker` uses is declared two levels above. -/
def nested : Module Hook :=
  { ofNetlist "top" { domains := [clock "c_sys"] } with children := [⟨some "m", bridge⟩] }

def atRoot : Context := { defaultDomain := "sys", maxDepth := 3 }

/-- `bridge` when it takes over its child. -/
def bridgeReady : Module Hook := { bridge with
  children := [{ worker with module := { worker.module with stage := .finalized } }]
  stage := .finalizing }

end Sample

/-- In `bridge`, the domain of `worker` captures the name it gets there, and leaves others alone. -/
theorem bridge_separates :
    (∃ done left, nested.finalize.run atRoot = ((.ok (), done), left)) ∧
    Joins 3 nested atRoot 2 bridge (atRoot.inside "top") ∧
    ∃ entered between,
      ((preparing (finalizeWithin 1)).run.run bridge).run ((atRoot.inside "top").inside "m") =
        ((.ok entered, bridgeReady), between) ∧
      collisions bridgeReady.netlist bridgeReady.children = ["sys"] ∧
      finalName "c" ["sys"] ["sys"] "sys" = finalName "c" ["sys"] ["sys"] "c_sys" ∧
      finalName "c" ["sys"] ["sys"] "sys" ≠ finalName "c" ["sys"] ["sys"] "io" := by
  have finalized : ∃ done left, nested.finalize.run atRoot = ((.ok (), done), left) :=
    ⟨_, _, rfl⟩
  have joins : Joins 3 nested atRoot 2 bridge (atRoot.inside "top") :=
    .child ⟨[], ⟨some "m", bridge⟩, [], [], rfl, by decide, rfl, rfl⟩ .root
  obtain ⟨done, left, ran⟩ := finalized
  obtain ⟨below, entered, ready, between, whole, after, room, prepared, -, -, each⟩ :=
    finalize_separates ran joins
  cases room
  obtain rfl : bridgeReady = ready := congrArg (fun ended => ended.1.2) prepared
  have collided : collisions bridgeReady.netlist bridgeReady.children = ["sys"] := by
    decide +kernel
  obtain ⟨-, meet⟩ := each _ List.mem_cons_self "c" rfl
  rw [collided] at meet
  refine ⟨⟨done, left, ran⟩, joins, entered, between, prepared, collided, ?_, ?_⟩
  · exact (meet "sys" "c_sys").mpr (.inr ⟨"sys", by decide, by decide, by decide⟩)
  · exact fun same => absurd ((meet "sys" "io").mp same) (by decide)

/-- Two domains of `worker` are one in the end. -/
theorem nested_merges :
    worker.module.netlist.sync.get? "sys" = some [mark 1] ∧
    worker.module.netlist.sync.get? "c_sys" = some [mark 2] ∧
    ∃ done left, nested.finalize.run atRoot = ((.ok (), done), left) ∧
      done.netlist.names = ["c_sys", "sys", "m_c_sys"] ∧
      done.netlist.sync.entries = [("m_c_sys", [mark 2, mark 1])] :=
  ⟨by decide +kernel, by decide +kernel, _, _, rfl, by decide +kernel, by decide +kernel⟩

end Module

end Gateware
