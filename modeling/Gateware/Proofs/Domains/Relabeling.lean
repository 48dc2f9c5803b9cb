import Gateware.Proofs.Hierarchy.Renaming

/-!
# Relabelled clock domains

A domain's name can stand in many places: in declarations, over clocked statements, in references
that hide in nested values and in the selectors of targets, and in fields of cells. Renaming has to
reach all of them and must leave everything else alone.

## Main results

`Netlist.Relabeled`: two netlists are the same but for the names of domains. The relation follows
the syntax and does not call the renaming.

`renameDomain_complete`: renaming a domain gives a relabelled netlist, in which the old name stands
nowhere.

## Proof strategy

A relabelled value is the renamed one (`Expr.relabeled_iff`), so the references, signals and shape
of a relabelled value can be computed. That every place is reached is one equation for each
collection of places (`Renamed.used`, `Renamed.occurring`).
-/
namespace Gateware

/-! ### Relabelled syntax -/

namespace Expr

/-- `e'` is `e` with `f d` in the place of every domain `d`. -/
inductive Relabeled (f : String → String) : Expr → Expr → Prop
  | literal {c : Literal} : Relabeled f (.literal c) (.literal c)
  | signal {s : Signal} : Relabeled f (.signal s) (.signal s)
  | clock {d : String} : Relabeled f (.ref (.clock d)) (.ref (.clock (f d)))
  | reset {d : String} {orZero : Bool} :
    Relabeled f (.ref (.reset d orZero)) (.ref (.reset (f d) orZero))
  | unary {op : UnaryOp} {a a' : Expr} :
    Relabeled f a a' → Relabeled f (.unary op a) (.unary op a')
  | binary {op : BinaryOp} {a a' b b' : Expr} :
    Relabeled f a a' → Relabeled f b b' → Relabeled f (.binary op a b) (.binary op a' b')
  | slice {a a' : Expr} {start stop : Nat} :
    Relabeled f a a' → Relabeled f (.slice a start stop) (.slice a' start stop)
  | concat {ps ps' : List Expr} :
    List.Forall₂ (Relabeled f) ps ps' → Relabeled f (.concat ps) (.concat ps')
  | replicate {a a' : Expr} {count : Nat} :
    Relabeled f a a' → Relabeled f (.replicate a count) (.replicate a' count)
  | mux {s s' : Expr} {cs cs' : List Expr} :
    Relabeled f s s' → List.Forall₂ (Relabeled f) cs cs' → Relabeled f (.mux s cs) (.mux s' cs')

end Expr

mutual
/-- `s'` is `s` with `f d` in the place of every domain `d`. -/
inductive Stmt.Relabeled (f : String → String) : Stmt → Stmt → Prop
  | assign {lhs lhs' rhs rhs' : Expr} :
    lhs.Relabeled f lhs' → rhs.Relabeled f rhs' →
    Stmt.Relabeled f (.assign lhs rhs) (.assign lhs' rhs')
  | branch {cond cond' : Expr} {yes yes' no no' : List Stmt} :
    cond.Relabeled f cond' → List.Forall₂ (Stmt.Relabeled f) yes yes' →
    List.Forall₂ (Stmt.Relabeled f) no no' →
    Stmt.Relabeled f (.branch cond yes no) (.branch cond' yes' no')
  | select {test test' : Expr} {arms arms' : Arms} :
    test.Relabeled f test' → Arms.Relabeled f arms arms' →
    Stmt.Relabeled f (.select test arms) (.select test' arms')
  | nextState {state : String} : Stmt.Relabeled f (.nextState state) (.nextState state)
  | nextValue {target target' value value' : Expr} :
    target.Relabeled f target' → value.Relabeled f value' →
    Stmt.Relabeled f (.nextValue target value) (.nextValue target' value')

inductive Arms.Relabeled (f : String → String) : Arms → Arms → Prop
  | done : Arms.Relabeled f .done .done
  | otherwise {body body' : List Stmt} :
    List.Forall₂ (Stmt.Relabeled f) body body' →
    Arms.Relabeled f (.otherwise body) (.otherwise body')
  | arm {key : Literal} {body body' : List Stmt} {rest rest' : Arms} :
    List.Forall₂ (Stmt.Relabeled f) body body' → Arms.Relabeled f rest rest' →
    Arms.Relabeled f (.arm key body rest) (.arm key body' rest')
end

/-- A connection to a relabelled value. -/
inductive Instance.Item.Relabeled (f : String → String) : Instance.Item → Instance.Item → Prop
  | connect {direction : Direction} {port : String} {value value' : Expr} :
    value.Relabeled f value' →
    Relabeled f (.connect direction port value) (.connect direction port value')
  | param {name : String} {value : Param} : Relabeled f (.param name value) (.param name value)

/-- The same contents of a cell in renamed domains, with relabelled values. -/
inductive Cell.Kind.Relabeled (f : String → String) : Cell.Kind → Cell.Kind → Prop
  | inst {of : String} {name : Option String} {items items' : List Instance.Item} :
    List.Forall₂ (Instance.Item.Relabeled f) items items' →
    Relabeled f (.inst ⟨of, name, items⟩) (.inst ⟨of, name, items'⟩)
  | memory {m : Memory} {ports : List Memory.Port} {own : Memory.OwnSignals ports} :
    List.Forall₂ (fun p p' => p' = { p with domain := f p.domain }) m.ports ports →
    Relabeled f (.memory m) (.memory { m with ports, own })
  | tristate {target : Signal} {o o' oe oe' : Expr} {i : Option Signal} :
    o.Relabeled f o' → oe.Relabeled f oe' →
    Relabeled f (.tristate ⟨target, o, oe, i⟩) (.tristate ⟨target, o', oe', i⟩)
  | multiReg {input input' : Expr} {output : Signal} {domain : String} {stages : Nat} :
    input.Relabeled f input' →
    Relabeled f (.multiReg ⟨input, output, domain, stages⟩)
      (.multiReg ⟨input', output, f domain, stages⟩)
  | resetSync {domain : String} {reset reset' : Expr} :
    reset.Relabeled f reset' →
    Relabeled f (.resetSync ⟨domain, reset⟩) (.resetSync ⟨f domain, reset'⟩)
  | diffInput {d : DiffInput} : Relabeled f (.diffInput d) (.diffInput d)
  | diffOutput {input input' : Expr} {p n : Signal} :
    input.Relabeled f input' →
    Relabeled f (.diffOutput ⟨input, p, n⟩) (.diffOutput ⟨input', p, n⟩)
  | directive {d : Directive} : Relabeled f (.directive d) (.directive d)

/-- The names in the second list are those that `f` gives to the names in the first. -/
def Images (f : String → String) (xs ys : List String) : Prop := ∀ d, d ∈ ys ↔ ∃ e ∈ xs, f e = d

/-- `n'` is `n` with `f d` in the place of every domain `d`. The clocked statements of a domain are
those of the domains that were given its name, list by list in some order. -/
structure Netlist.Relabeled (f : String → String) (n n' : Netlist) : Prop where
  comb : List.Forall₂ (Stmt.Relabeled f) n.comb n'.comb
  keys : Images f n.sync.keys.toList n'.sync.keys.toList
  sync : ∀ d, ∃ es : List String, es.Perm (n.sync.keys.toList.filter (f · = d)) ∧
    List.Forall₂ (Stmt.Relabeled f) (es.flatMap (n.sync.getD · [])) (n'.sync.getD d [])
  cells : List.Forall₂ (fun c c' => c'.1 = c.1 ∧ c'.2.id = c.2.id ∧ c.2.kind.Relabeled f c'.2.kind)
    n.cells.entries n'.cells.entries
  domains : List.Forall₂ (fun d d' => d' = { d with name := f d.name }) n.domains n'.domains

variable {f : String → String}

/-! ### Renaming relabels -/

namespace Expr

mutual
/-- The relation determines the relabelled value. -/
theorem relabeled_iff (e e' : Expr) : e.Relabeled f e' ↔ e' = e.renameDomains f := by
  constructor
  · intro h
    cases h with
    | literal | signal | clock | reset => rfl
    | unary ha | slice ha | replicate ha =>
      rw [(relabeled_iff ..).mp ha]
      rfl
    | binary ha hb =>
      rw [(relabeled_iff ..).mp ha, (relabeled_iff ..).mp hb]
      rfl
    | concat all =>
      rw [(relabeledAll_iff ..).mp all]
      rfl
    | mux hs all =>
      rw [(relabeled_iff ..).mp hs, (relabeledAll_iff ..).mp all]
      rfl
  · rintro rfl
    cases e with
    | literal => exact .literal
    | signal => exact .signal
    | ref r =>
      cases r with
      | clock => exact .clock
      | reset => exact .reset
    | unary op a => exact .unary ((relabeled_iff ..).mpr rfl)
    | binary op a b => exact .binary ((relabeled_iff ..).mpr rfl) ((relabeled_iff ..).mpr rfl)
    | slice a i j => exact .slice ((relabeled_iff ..).mpr rfl)
    | concat ps => exact .concat ((relabeledAll_iff ..).mpr rfl)
    | replicate a n => exact .replicate ((relabeled_iff ..).mpr rfl)
    | mux s cs => exact .mux ((relabeled_iff ..).mpr rfl) ((relabeledAll_iff ..).mpr rfl)
termination_by structural e

theorem relabeledAll_iff (ps ps' : List Expr) : List.Forall₂ (Relabeled f) ps ps' ↔
    ps' = bindRefsOf (fun r => .ref (r.rename f)) ps := by
  constructor
  · intro h
    cases h with
    | nil => rfl
    | cons first rest =>
      rw [(relabeled_iff ..).mp first, (relabeledAll_iff ..).mp rest]
      rfl
  · rintro rfl
    cases ps with
    | nil => exact .nil
    | cons p ps => exact .cons ((relabeled_iff ..).mpr rfl) ((relabeledAll_iff ..).mpr rfl)
termination_by structural ps
end

theorem relabeled_renameDomains (f : String → String) (e : Expr) :
    e.Relabeled f (e.renameDomains f) :=
  (e.relabeled_iff _).mpr rfl

end Expr

namespace Stmt

mutual
theorem relabeled_mapExprs (f : String → String) (s : Stmt) :
    s.Relabeled f (s.mapExprs (Expr.renameDomains f)) := by
  cases s with
  | assign lhs rhs =>
    rw [mapExprs]
    exact .assign (lhs.relabeled_renameDomains f) (rhs.relabeled_renameDomains f)
  | branch cond yes no =>
    rw [mapExprs]
    exact .branch (cond.relabeled_renameDomains f) (relabeled_renameDomains f yes)
      (relabeled_renameDomains f no)
  | select test arms =>
    rw [mapExprs]
    exact .select (test.relabeled_renameDomains f) (relabeled_mapExprsOfArms f arms)
  | nextState state =>
    rw [mapExprs]
    exact .nextState
  | nextValue target value =>
    rw [mapExprs]
    exact .nextValue (target.relabeled_renameDomains f) (value.relabeled_renameDomains f)

theorem relabeled_renameDomains (f : String → String) (ss : List Stmt) :
    List.Forall₂ (Stmt.Relabeled f) ss (renameDomains f ss) := by
  cases ss with
  | nil => exact .nil
  | cons s ss => exact .cons (relabeled_mapExprs f s) (relabeled_renameDomains f ss)

theorem relabeled_mapExprsOfArms (f : String → String) (arms : Arms) :
    arms.Relabeled f (mapExprsOfArms (Expr.renameDomains f) arms) := by
  cases arms with
  | done =>
    rw [mapExprsOfArms]
    exact .done
  | otherwise body =>
    rw [mapExprsOfArms]
    exact .otherwise (relabeled_renameDomains f body)
  | arm key body rest =>
    rw [mapExprsOfArms]
    exact .arm (relabeled_renameDomains f body) (relabeled_mapExprsOfArms f rest)
end

end Stmt

theorem Instance.Item.relabeled_map (f : String → String) (items : List Instance.Item) :
    List.Forall₂ (Relabeled f) items (items.map fun
      | .connect direction port value => .connect direction port (value.renameDomains f)
      | .param name value => .param name value) := by
  rw [List.forall₂_map_right_iff, List.forall₂_same]
  intro item _
  cases item with
  | connect direction port value => exact .connect (value.relabeled_renameDomains f)
  | param => exact .param

theorem Cell.relabeled_renameDomains (f : String → String) (c : Cell) :
    c.kind.Relabeled f (c.renameDomains f).kind := by
  obtain ⟨id, kind⟩ := c
  cases kind with
  | inst i => exact .inst (Instance.Item.relabeled_map f i.items)
  | memory m =>
    refine .memory ?_
    rw [List.forall₂_map_right_iff, List.forall₂_same]
    exact fun _ _ => rfl
  | tristate t => exact .tristate (t.o.relabeled_renameDomains f) (t.oe.relabeled_renameDomains f)
  | multiReg m => exact .multiReg (m.input.relabeled_renameDomains f)
  | resetSync r => exact .resetSync (r.asyncReset.relabeled_renameDomains f)
  | diffInput => exact .diffInput
  | diffOutput d => exact .diffOutput (d.input.relabeled_renameDomains f)
  | directive => exact .directive

/-! ### References, signals and shapes of a renamed value -/

namespace Expr

variable (f)

theorem refs_renameDomains (e : Expr) :
    (e.renameDomains f).refs = e.refs.map (DomainRef.rename f) := by
  rw [renameDomains, refs_bindRefs, List.map_eq_flatMap]
  rfl

theorem mentions_renameDomains (e : Expr) : (e.renameDomains f).mentions = e.mentions := by
  unfold renameDomains
  induction e with
  | literal | signal | ref => rfl
  | concat ps ih | mux _ ps _ ih =>
    simp only [bindRefs, mentions, mentionsOf_eq, bindRefsOf_eq_map, List.flatMap_map,
      List.flatMap_congr ih, *]
  | _ => simp only [bindRefs, mentions, *]

/-- A renamed reference is no literal, so that a shift keeps its kind of amount. -/
theorem literal?_renameDomains (e : Expr) : (e.renameDomains f).literal? = e.literal? := by
  cases e <;> rfl

theorem shape_renameDomains (e : Expr) : (e.renameDomains f).shape = e.shape := by
  have amount := literal?_renameDomains f
  unfold renameDomains at amount ⊢
  induction e with
  | literal | signal | ref => rfl
  | concat ps ih | mux _ ps _ ih =>
    simp only [bindRefs, shape, shapes_eq_map, bindRefsOf_eq_map, List.map_map, Function.comp_def,
      List.map_congr_left ih]
  | _ => simp only [bindRefs, shape, *]

/-- The domains that a value mentions. -/
def domains (e : Expr) : List String := e.refs.map (·.domain)

theorem domains_renameDomains (e : Expr) : (e.renameDomains f).domains = e.domains.map f := by
  rw [domains, refs_renameDomains, domains, List.map_map, List.map_map]
  refine List.map_congr_left fun r _ => ?_
  cases r <;> rfl

end Expr

/-! ### Where names stand -/

namespace Cell

/-- Every field of a cell that names a domain, those of memory ports without a clock included. -/
def Kind.fields : Kind → List String
  | .memory m => m.ports.map (·.domain)
  | .multiReg m => [m.odomain]
  | .resetSync r => [r.domain]
  | .inst _ | .tristate _ | .diffInput _ | .diffOutput _ | .directive _ => []

/-- Every domain that a field or a port's value names. -/
def occurring (c : Cell) : List String := c.kind.fields ++ c.ports.flatMap (·.value.domains)

variable (f) (c : Cell)

theorem ports_renameDomains : (c.renameDomains f).ports =
    c.ports.map fun p => { p with value := p.value.renameDomains f } := by
  obtain ⟨id, kind⟩ := c
  cases kind with
  | inst i =>
    simp only [ports, renameDomains, Kind.moveHomes, Kind.mapExprs, Kind.ports, List.filterMap_map,
      List.map_filterMap]
    congr 1
    funext item
    cases item <;> rfl
  | memory m =>
    simp only [ports, renameDomains, Kind.moveHomes, Kind.mapExprs, Kind.ports, Memory.moveHomes,
      List.flatMap_map, List.map_flatMap]
    refine List.flatMap_congr fun p _ => ?_
    obtain ⟨_, _, _, write, re, _, _, _, _⟩ := p
    cases write <;> cases re <;> rfl
  | tristate t =>
    obtain ⟨_, _, _, i⟩ := t
    cases i <;> rfl
  | multiReg | resetSync | diffInput | diffOutput => rfl
  | directive d =>
    simp only [ports, renameDomains, Kind.moveHomes, Kind.mapExprs, Kind.ports, List.map_map]
    rfl

theorem domains_ports_renameDomains : (c.renameDomains f).ports.flatMap (·.value.domains) =
    (c.ports.flatMap (·.value.domains)).map f := by
  rw [ports_renameDomains, List.flatMap_map, List.map_flatMap]
  simp only [Expr.domains_renameDomains]

theorem fields_renameDomains : (c.renameDomains f).kind.fields = c.kind.fields.map f := by
  obtain ⟨id, kind⟩ := c
  cases kind with
  | memory m =>
    simp only [renameDomains, Kind.moveHomes, Kind.mapExprs, Kind.fields, Memory.moveHomes,
      List.map_map]
    rfl
  | inst | tristate | multiReg | resetSync | diffInput | diffOutput | directive => rfl

theorem homes_renameDomains : (c.renameDomains f).kind.homes = c.kind.homes.map f := by
  obtain ⟨id, kind⟩ := c
  cases kind with
  | memory m =>
    simp only [renameDomains, Kind.moveHomes, Kind.mapExprs, Kind.homes, Memory.moveHomes,
      List.filter_map, List.map_map]
    rfl
  | inst | tristate | multiReg | resetSync | diffInput | diffOutput | directive => rfl

theorem occurring_renameDomains : (c.renameDomains f).occurring = c.occurring.map f := by
  rw [occurring, fields_renameDomains, domains_ports_renameDomains, ← List.map_append]
  rfl

end Cell

/-! ### Every name is reached -/

theorem Images.map (f : String → String) (xs : List String) : Images f xs (xs.map f) :=
  fun _ => List.mem_map

theorem Images.append {xs ys xs' ys' : List String} (left : Images f xs xs')
    (right : Images f ys ys') : Images f (xs ++ ys) (xs' ++ ys') := by
  intro d
  simp only [List.mem_append, left d, right d, or_and_right, exists_or]

theorem Images.ofList {xs ys : List String} (h : Images f xs ys) :
    Images f (OrdSet.ofList xs).toList (OrdSet.ofList ys).toList := by
  intro d
  simp only [OrdSet.mem_toList, OrdSet.mem_ofList]
  exact h d

theorem Cell.domains_renameDomains (f : String → String) (c : Cell) :
    Images f c.domains.toList (c.renameDomains f).domains.toList := by
  have places : (c.renameDomains f).kind.homes ++
      (c.renameDomains f).ports.flatMap (·.value.domains) =
        (c.kind.homes ++ c.ports.flatMap (·.value.domains)).map f := by
    rw [homes_renameDomains, domains_ports_renameDomains, List.map_append]
  refine Images.ofList ?_
  exact places ▸ Images.map f _

namespace Netlist

/-- Every name of a domain in the netlist, with repetitions, wherever it stands: declarations, what
clocked statements belong to, values of statements, and cells. -/
def occurring (n : Netlist) : List String :=
  n.names ++ n.sync.keys.toList ++ (Stmt.exprsOf n.stmts).flatMap Expr.domains
    ++ n.cells.values.flatMap Cell.occurring

theorem mem_getD_sync {n : Netlist} {d : String} {s : Stmt} :
    s ∈ n.sync.getD d [] ↔ ∃ ss, n.sync.get? d = some ss ∧ s ∈ ss := by
  rw [OrdMap.getD]
  cases n.sync.get? d <;> simp

theorem mem_clocked {n : Netlist} {d : String} : d ∈ n.clocked ↔ ∃ s, s ∈ n.sync.getD d [] := by
  simp only [clocked, List.mem_map, List.mem_filter, Bool.not_eq_true', List.isEmpty_eq_false_iff,
    mem_getD_sync, OrdMap.get?_eq_some_iff]
  constructor
  · rintro ⟨⟨_, ss⟩, ⟨entry, filled⟩, rfl⟩
    obtain ⟨s, hs⟩ := List.exists_mem_of_ne_nil ss filled
    exact ⟨s, ss, entry, hs⟩
  · rintro ⟨s, ss, entry, hs⟩
    exact ⟨(d, ss), ⟨entry, List.ne_nil_of_mem hs⟩, rfl⟩

namespace Renamed

variable {n n' : Netlist} (renamed : n.Renamed f n')

include renamed

theorem mem_getD {d : String} {s : Stmt} : s ∈ n'.sync.getD d [] ↔
    ∃ e, f e = d ∧ ∃ t ∈ n.sync.getD e [], t.mapExprs (Expr.renameDomains f) = s := by
  obtain ⟨es, -, members, gathered⟩ := renamed.sync d
  rw [gathered, List.mem_flatMap]
  simp only [Stmt.renameDomains, Stmt.mapExprsOf_eq, List.mem_map, members]
  constructor
  · rintro ⟨e, ⟨-, goes⟩, statement⟩
    exact ⟨e, goes, statement⟩
  · rintro ⟨e, goes, t, ht, same⟩
    obtain ⟨ss, found, -⟩ := mem_getD_sync.mp ht
    exact ⟨e, ⟨Option.isSome_of_mem found, goes⟩, t, ht, same⟩

theorem mem_stmts {s : Stmt} :
    s ∈ n'.stmts ↔ ∃ t ∈ n.stmts, t.mapExprs (Expr.renameDomains f) = s := by
  simp only [Netlist.mem_stmts, ← mem_getD_sync, renamed.mem_getD, renamed.comb,
    Stmt.renameDomains, Stmt.mapExprsOf_eq, List.mem_map]
  constructor
  · rintro (⟨t, ht, same⟩ | ⟨_, e, rfl, t, ht, same⟩)
    · exact ⟨t, .inl ht, same⟩
    · exact ⟨t, .inr ⟨e, ht⟩, same⟩
  · rintro ⟨t, ht | ⟨e, ht⟩, same⟩
    · exact .inl ⟨t, ht, same⟩
    · exact .inr ⟨f e, e, rfl, t, ht, same⟩

theorem keys : Images f n.sync.keys.toList n'.sync.keys.toList := by
  intro d
  simp only [OrdSet.mem_toList, OrdMap.mem_keys]
  exact renamed.contains d

theorem references : Images f ((Stmt.exprsOf n.stmts).flatMap Expr.domains)
    ((Stmt.exprsOf n'.stmts).flatMap Expr.domains) := by
  intro d
  simp only [Stmt.exprsOf_eq, List.mem_flatMap, renamed.mem_stmts]
  constructor
  · rintro ⟨_, ⟨_, ⟨t, ht, rfl⟩, he⟩, hd⟩
    rw [Stmt.exprs_mapExprs, List.mem_map] at he
    obtain ⟨e, he, rfl⟩ := he
    rw [Expr.domains_renameDomains, List.mem_map] at hd
    obtain ⟨x, hx, rfl⟩ := hd
    exact ⟨x, ⟨e, ⟨t, ht, he⟩, hx⟩, rfl⟩
  · rintro ⟨x, ⟨e, ⟨t, ht, he⟩, hx⟩, rfl⟩
    refine ⟨e.renameDomains f, ⟨_, ⟨t, ht, rfl⟩, ?_⟩, ?_⟩
    · rw [Stmt.exprs_mapExprs]
      exact List.mem_map_of_mem he
    · rw [Expr.domains_renameDomains]
      exact List.mem_map_of_mem hx

theorem values_cells : n'.cells.values = n.cells.values.map (Cell.renameDomains f) := by
  rw [renamed.cells, OrdMap.values, OrdMap.values, List.map_map]
  exact List.map_map

theorem clocked : Images f n.clocked n'.clocked := by
  intro d
  simp only [mem_clocked, renamed.mem_getD]
  constructor
  · rintro ⟨_, e, goes, t, ht, -⟩
    exact ⟨e, ⟨t, ht⟩, goes⟩
  · rintro ⟨e, ⟨t, ht⟩, goes⟩
    exact ⟨_, e, goes, t, ht, rfl⟩

/-- The domains that a renamed netlist uses are those that the netlist used, renamed. -/
theorem used : Images f n.used.toList n'.used.toList := by
  have cells : Images f (n.cells.values.flatMap fun c => c.domains.toList)
      (n'.cells.values.flatMap fun c => c.domains.toList) := by
    rw [renamed.values_cells, List.flatMap_map]
    intro d
    simp only [List.mem_flatMap]
    constructor
    · rintro ⟨c, hc, hd⟩
      obtain ⟨e, he, rfl⟩ := (c.domains_renameDomains f d).mp hd
      exact ⟨e, ⟨c, hc, he⟩, rfl⟩
    · rintro ⟨e, ⟨c, hc, he⟩, rfl⟩
      exact ⟨c, hc, (c.domains_renameDomains f _).mpr ⟨e, he, rfl⟩⟩
  exact ((renamed.clocked.append renamed.references).append cells).ofList

/-- What a renamed netlist names is what the netlist named, renamed. -/
theorem occurring : Images f n.occurring n'.occurring := by
  have cells : Images f (n.cells.values.flatMap Cell.occurring)
      (n'.cells.values.flatMap Cell.occurring) := by
    rw [renamed.values_cells, List.flatMap_map]
    simp only [Cell.occurring_renameDomains, ← List.map_flatMap]
    exact .map f _
  have declared : Images f n.names n'.names := by
    rw [renamed.names_eq]
    exact .map f _
  exact ((declared.append renamed.keys).append renamed.references).append cells

/-- A renamed netlist is the same one but for the names of domains. -/
theorem relabeled : n.Relabeled f n' where
  comb := by
    rw [renamed.comb]
    exact Stmt.relabeled_renameDomains f n.comb
  keys := renamed.keys
  sync d := by
    obtain ⟨es, once, members, gathered⟩ := renamed.sync d
    refine ⟨es, ?_, ?_⟩
    · refine (List.perm_ext_iff_of_nodup once (n.sync.keys.increasing.nodup.filter _)).mpr ?_
      intro e
      rw [members, List.mem_filter, decide_eq_true_eq, OrdSet.mem_toList, OrdMap.mem_keys]
      rfl
    · rw [gathered, ← Stmt.renameDomains_flatMap]
      exact Stmt.relabeled_renameDomains f _
  cells := by
    rw [renamed.cells]
    refine List.forall₂_map_right_iff.mpr (List.forall₂_same.mpr fun c _ => ?_)
    exact ⟨rfl, rfl, c.2.relabeled_renameDomains f⟩
  domains := by
    rw [renamed.domains]
    exact List.forall₂_map_right_iff.mpr (List.forall₂_same.mpr fun _ _ => rfl)

end Renamed

theorem swapName_ne {old new : String} (apart : old ≠ new) (d : String) :
    swapName old new d ≠ old := by
  unfold swapName
  split
  next => exact apart.symm
  next other => exact other

/-- Renaming a domain reaches every place where its name stands and changes nothing else. The names
that are used, declared, and given to clocked statements are the old ones with `new` for `old`, and
`old` stands nowhere any more. Statements and cells are relabelled, each domain's statements
being those of the domains that now have its name. Relabelled values have the same signals and the
same shape. -/
theorem renameDomain_complete (n : Netlist) {old new : String} (apart : old ≠ new) :
    let f := swapName old new
    let n' := n.renameDomain old new
    Images f n.used.toList n'.used.toList ∧
    n'.domains.map (·.name) = (n.domains.map (·.name)).map f ∧
    Images f n.sync.keys.toList n'.sync.keys.toList ∧
    Images f n.occurring n'.occurring ∧
    old ∉ n'.occurring ∧
    n.Relabeled f n' ∧
    ∀ e e' : Expr, e.Relabeled f e' → e'.mentions = e.mentions ∧ e'.shape = e.shape := by
  intro f n'
  have renamed : n.Renamed f n' := n.renamed_renameDomains f
  refine ⟨renamed.used, renamed.names_eq, renamed.keys, renamed.occurring, ?_,
    renamed.relabeled, ?_⟩
  · intro left
    obtain ⟨e, -, same⟩ := (renamed.occurring old).mp left
    exact swapName_ne apart e same
  · intro e e' relabeled
    obtain rfl := (e.relabeled_iff e').mp relabeled
    exact ⟨e.mentions_renameDomains f, e.shape_renameDomains f⟩

/-- A netlist that names the domain `sys` in a target's selector, in a nested body, over clocked
statements, in a declaration, and in two cells, one of them a memory port without a clock. -/
def scattered : Netlist :=
  let bit (i : Nat) : Signal := ⟨⟨i⟩, "x", .unsigned 1, 0, false⟩
  { comb := [.assign (.mux (.clock "sys") [bit 0, bit 1]) (.int 1)]
    sync := .ofList [
      ("fast", [.assign (bit 2) (.int 0)]),
      ("sys", [.branch (bit 0) [.assign (bit 3) (.resetOrZero "sys")] []])]
    cells := .ofList [
      (⟨0⟩, ⟨⟨0⟩, .memory { name := "rom", width := 1, depth := 2, ports := [
        { name := "r", adr := bit 4, datR := bit 5, write := none, re := none, mode := .readFirst
          asyncRead := true, granularity := 0, domain := "sys" }] }⟩),
      (⟨1⟩, ⟨⟨1⟩, .resetSync ⟨"sys", .clock "io"⟩⟩)]
    domains := [{ name := "sys", clk := bit 6, rst := none, asyncReset := false }] }

theorem scattered_renamed :
    "sys" ≠ "fast" ∧ "sys" ∈ scattered.occurring ∧
    "sys" ∉ (scattered.renameDomain "sys" "fast").occurring ∧
    "fast" ∈ (scattered.renameDomain "sys" "fast").used ∧
    "io" ∈ (scattered.renameDomain "sys" "fast").used ∧
    (scattered.renameDomain "sys" "fast").domains.map (·.name) = ["fast"] := by
  have apart : "sys" ≠ "fast" := by decide
  obtain ⟨used, names, -, -, gone, -⟩ := renameDomain_complete scattered apart
  refine ⟨apart, by decide +kernel, gone, ?_, ?_, names⟩
  · exact (used "fast").mpr ⟨"sys", by decide +kernel, rfl⟩
  · exact (used "io").mpr ⟨"io", by decide +kernel, rfl⟩

end Netlist

end Gateware
