import Gateware.Hierarchy.Finalize
import Gateware.Proofs.Ordered
import Gateware.Proofs.Renumbering.Folding
import Gateware.Proofs.Statements
import Mathlib.Data.List.Nodup

/-!
# Renamed clock domains

What it means for one netlist to be another with its clock domains renamed, and which domains a
named child keeps apart when the colliding ones are renamed one after the other.

## Main results

`Netlist.Renamed`: everything that belongs to a domain belongs to the renamed one. Renaming does so
(`renamed_renameDomains`), and renamings compose (`Renamed.trans`).

`finalName_eq_iff`: of the names that a child declares or uses, exactly those become one that a
declared domain captures. A domain captures the undeclared names that it takes on its way.

## Proof strategy

By induction on the colliding domains. After one of them is renamed, the later ones see a child with
other declared names, and a domain captures there what it captured before (`captures_cons`). That
the names are told apart needs only that putting the child's name in front is injective.
-/
namespace Gateware

/-! ### Renaming twice -/

theorem DomainRef.rename_rename (f g : String → String) (r : DomainRef) :
    (r.rename f).rename g = r.rename (g ∘ f) := by
  cases r <;> rfl

theorem DomainRef.rename_id (r : DomainRef) : r.rename id = r := by
  cases r <;> rfl

namespace Expr

theorem bindRefs_bindRefs (f g : DomainRef → Expr) (e : Expr) :
    (e.bindRefs f).bindRefs g = e.bindRefs fun r => (f r).bindRefs g := by
  induction e with
  | literal | signal | ref => rfl
  | concat ps ih | mux _ ps _ ih =>
    simp only [bindRefs, bindRefsOf_eq_map, List.map_map, Function.comp_def,
      List.map_congr_left ih, *]
  | _ => simp only [bindRefs, *]

theorem renameDomains_renameDomains (f g : String → String) (e : Expr) :
    (e.renameDomains f).renameDomains g = e.renameDomains (g ∘ f) := by
  simp only [renameDomains, bindRefs_bindRefs, bindRefs, DomainRef.rename_rename]

theorem renameDomains_id (e : Expr) : e.renameDomains id = e := by
  simp only [renameDomains, DomainRef.rename_id]
  exact bindRefs_ref e

end Expr

theorem Stmt.renameDomains_renameDomains (f g : String → String) (ss : List Stmt) :
    renameDomains g (renameDomains f ss) = renameDomains (g ∘ f) ss :=
  mapExprsOf_trans ss fun e _ => e.renameDomains_renameDomains f g

theorem Stmt.renameDomains_id (ss : List Stmt) : renameDomains id ss = ss :=
  mapExprsOf_of_fixed ss fun e _ => e.renameDomains_id

theorem Stmt.renameDomains_flatMap {α : Type} (f : String → String) (xs : List α)
    (g : α → List Stmt) :
    renameDomains f (xs.flatMap g) = xs.flatMap fun x => renameDomains f (g x) := by
  simp only [renameDomains, mapExprsOf_eq, List.map_flatMap]

theorem Cell.renameDomains_renameDomains (f g : String → String) (c : Cell) :
    (c.renameDomains f).renameDomains g = c.renameDomains (g ∘ f) := by
  obtain ⟨id, kind⟩ := c
  cases kind with
  | inst i =>
    simp only [renameDomains, Kind.moveHomes, Kind.mapExprs, List.map_map]
    congr 4
    funext item
    cases item with
    | connect direction port value =>
      exact congrArg (Instance.Item.connect direction port)
        (value.renameDomains_renameDomains f g)
    | param => rfl
  | memory m =>
    simp only [renameDomains, Kind.moveHomes, Kind.mapExprs, Memory.moveHomes, List.map_map,
      Function.comp_def]
  | diffInput | directive => rfl
  | tristate | multiReg | resetSync | diffOutput =>
    simp only [renameDomains, Kind.moveHomes, Kind.mapExprs, Expr.renameDomains_renameDomains,
      Function.comp_apply]

theorem Cell.renameDomains_id (c : Cell) : c.renameDomains (fun d => d) = c := by
  have values : ∀ e : Expr, e.renameDomains (fun d => d) = e := Expr.renameDomains_id
  obtain ⟨id, kind⟩ := c
  cases kind with
  | inst i =>
    simp only [renameDomains, Kind.moveHomes, Kind.mapExprs]
    congr 2
    obtain ⟨of, name, items⟩ := i
    congr 1
    refine (List.map_congr_left fun item _ => ?_).trans (List.map_id items)
    cases item with
    | connect direction port value =>
      exact congrArg (Instance.Item.connect direction port) (values value)
    | param => rfl
  | memory m =>
    simp only [renameDomains, Kind.moveHomes, Kind.mapExprs, Memory.moveHomes, List.map_id']
  | diffInput | directive => rfl
  | tristate | multiReg | resetSync | diffOutput =>
    simp only [renameDomains, Kind.moveHomes, Kind.mapExprs, values]

namespace Netlist

/-! ### A netlist with its domains renamed -/

/-- `n'` is `n` with `f d` in the place of every domain `d`. The clocked statements of a domain are
those of the domains that were given its name, list by list. -/
structure Renamed (f : String → String) (n n' : Netlist) : Prop where
  comb : n'.comb = Stmt.renameDomains f n.comb
  contains : ∀ d, n'.sync.contains d = true ↔ ∃ e, n.sync.contains e = true ∧ f e = d
  sync : ∀ d, ∃ es : List String, es.Nodup ∧ (∀ e, e ∈ es ↔ n.sync.contains e = true ∧ f e = d) ∧
    n'.sync.getD d [] = es.flatMap fun e => Stmt.renameDomains f (n.sync.getD e [])
  cells : n'.cells = n.cells.map (Cell.renameDomains f)
  domains : n'.domains = n.domains.map fun d => { d with name := f d.name }

section Sync

variable (f : String → String)

/-- Put clocked statements where their domain has gone. -/
abbrev gather (m : OrdMap String (List Stmt)) (e : String × List Stmt) :
    OrdMap String (List Stmt) :=
  m.alter (f e.1) fun old => old.getD [] ++ Stmt.renameDomains f e.2

theorem getD_foldl_gather (entries : List (String × List Stmt)) (m : OrdMap String (List Stmt))
    (d : String) :
    (entries.foldl (gather f) m).getD d [] = m.getD d [] ++
      (entries.filter (f ·.1 = d)).flatMap fun e => Stmt.renameDomains f e.2 := by
  induction entries generalizing m with
  | nil => exact (List.append_nil _).symm
  | cons e entries ih =>
    rw [List.foldl_cons, ih, List.filter_cons, gather, OrdMap.getD, OrdMap.alter,
      OrdMap.get?_insert]
    by_cases here : f e.1 = d
    · subst here
      simp [OrdMap.getD]
    · rw [if_neg (Ne.symm here)]
      simp [here, OrdMap.getD]

theorem contains_foldl_gather (entries : List (String × List Stmt))
    (m : OrdMap String (List Stmt)) (d : String) :
    (entries.foldl (gather f) m).contains d = true ↔
      m.contains d = true ∨ ∃ e ∈ entries, f e.1 = d := by
  induction entries generalizing m with
  | nil => simp
  | cons e entries ih =>
    rw [List.foldl_cons, ih, gather, OrdMap.contains, OrdMap.alter, OrdMap.get?_insert,
      List.exists_mem_cons_iff]
    by_cases here : f e.1 = d
    · simp [here]
    · rw [if_neg (Ne.symm here)]
      simp [here, OrdMap.contains]

end Sync

theorem contains_sync_iff {n : Netlist} {d : String} :
    n.sync.contains d = true ↔ ∃ ss, (d, ss) ∈ n.sync.entries := by
  rw [OrdMap.contains, Option.isSome_iff_exists]
  simp only [OrdMap.get?_eq_some_iff]

theorem renamed_renameDomains (n : Netlist) (f : String → String) :
    n.Renamed f (n.renameDomains f) where
  comb := rfl
  contains d := by
    refine (contains_foldl_gather f n.sync.entries ∅ d).trans ?_
    simp only [contains_sync_iff]
    constructor
    · rintro (none | ⟨⟨e, ss⟩, here, rfl⟩)
      · cases none
      · exact ⟨e, ⟨ss, here⟩, rfl⟩
    · rintro ⟨e, ⟨ss, here⟩, rfl⟩
      exact .inr ⟨(e, ss), here, rfl⟩
  sync d := by
    refine ⟨(n.sync.entries.filter (f ·.1 = d)).map (·.1), ?_, fun e => ?_, ?_⟩
    · have keys : (n.sync.entries.map (·.1)).Nodup :=
        (n.sync.keys.increasing : Ordered.Increasing id _).nodup
      exact keys.sublist (List.filter_sublist.map _)
    · simp only [contains_sync_iff, List.mem_map, List.mem_filter, decide_eq_true_eq]
      constructor
      · rintro ⟨⟨_, ss⟩, ⟨here, goes⟩, rfl⟩
        exact ⟨⟨ss, here⟩, goes⟩
      · rintro ⟨⟨ss, here⟩, goes⟩
        exact ⟨(e, ss), ⟨here, goes⟩, rfl⟩
    · refine (getD_foldl_gather f n.sync.entries ∅ d).trans ?_
      rw [List.flatMap_map]
      refine List.flatMap_congr fun e he => ?_
      have found : n.sync.get? e.1 = some e.2 :=
        OrdMap.get?_eq_some_iff.mpr (List.mem_filter.mp he).1
      rw [OrdMap.getD, found]
      rfl
  cells := rfl
  domains := rfl

theorem renamed_id (n : Netlist) : n.Renamed id n where
  comb := (Stmt.renameDomains_id _).symm
  contains d := by simp
  sync d := by
    by_cases here : n.sync.contains d = true
    · refine ⟨[d], List.nodup_singleton d, fun e => ?_, ?_⟩
      · rw [List.mem_singleton]
        exact ⟨fun same => ⟨same ▸ here, same⟩, fun h => h.2⟩
      · rw [List.flatMap_singleton, Stmt.renameDomains_id]
    · refine ⟨[], List.nodup_nil, fun e => ?_, ?_⟩
      · refine ⟨fun none => (List.not_mem_nil none).elim, ?_⟩
        rintro ⟨there, rfl⟩
        exact absurd there here
      · rw [OrdMap.contains, Bool.not_eq_true, Option.isSome_eq_false_iff,
          Option.isNone_iff_eq_none] at here
        rw [OrdMap.getD, here]
        rfl
  cells := by
    refine OrdMap.ext_get? fun i => ?_
    rw [OrdMap.get?_map]
    cases n.cells.get? i with
    | none => rfl
    | some c => exact congrArg some c.renameDomains_id.symm
  domains := (List.map_id' _).symm

/-- Renaming twice is renaming by both renamings. -/
theorem Renamed.trans {f g : String → String} {a b c : Netlist} (first : a.Renamed f b)
    (second : b.Renamed g c) : a.Renamed (g ∘ f) c where
  comb := by rw [second.comb, first.comb, Stmt.renameDomains_renameDomains]
  contains d := by
    rw [second.contains]
    constructor
    · rintro ⟨e, there, rfl⟩
      obtain ⟨x, here, rfl⟩ := (first.contains e).mp there
      exact ⟨x, here, rfl⟩
    · rintro ⟨x, here, rfl⟩
      exact ⟨f x, (first.contains _).mpr ⟨x, here, rfl⟩, rfl⟩
  sync d := by
    obtain ⟨es, once, members, gathered⟩ := second.sync d
    choose xs onceOf membersOf gatheredOf using first.sync
    refine ⟨es.flatMap xs, ?_, fun x => ?_, ?_⟩
    · refine List.nodup_flatMap.mpr ⟨fun e _ => onceOf e, once.imp fun {e e'} apart => ?_⟩
      intro x inOne inOther
      exact apart (((membersOf e x).mp inOne).2.symm.trans ((membersOf e' x).mp inOther).2)
    · rw [List.mem_flatMap]
      constructor
      · rintro ⟨e, he, hx⟩
        obtain ⟨here, rfl⟩ := (membersOf e x).mp hx
        exact ⟨here, ((members _).mp he).2⟩
      · rintro ⟨here, goes⟩
        refine ⟨f x, (members _).mpr ⟨?_, goes⟩, (membersOf _ x).mpr ⟨here, rfl⟩⟩
        exact (first.contains _).mpr ⟨x, here, rfl⟩
    · rw [gathered, List.flatMap_assoc]
      simp only [gatheredOf, Stmt.renameDomains_flatMap, Stmt.renameDomains_renameDomains]
  cells := by
    refine OrdMap.ext_get? fun i => ?_
    rw [second.cells, first.cells, OrdMap.get?_map, OrdMap.get?_map, OrdMap.get?_map,
      Option.map_map]
    congr 1
    funext c
    exact c.renameDomains_renameDomains f g
  domains := by
    rw [second.domains, first.domains, List.map_map]
    rfl

/-- The names of the declared domains, in the order of their declarations. -/
def names (n : Netlist) : List String := n.domains.map (·.name)

theorem Renamed.names_eq {f : String → String} {n n' : Netlist} (renamed : n.Renamed f n') :
    n'.names = n.names.map f := by
  rw [names, renamed.domains, names, List.map_map, List.map_map]
  rfl

end Netlist

namespace Module

open Netlist (swapName)

/-! ### Which domains become one -/

/-- The name that a domain of a child takes when it collides. -/
def prefixed (child domain : String) : String := s!"{child}_{domain}"

theorem prefixed_injective (child : String) : Function.Injective (prefixed child) := by
  intro d e same
  have chars : (child ++ "_" ++ d).toList = (child ++ "_" ++ e).toList :=
    congrArg String.toList same
  simp only [String.toList_append, List.append_right_inj] at chars
  exact String.toList_injective chars

theorem prefixed_ne (child domain : String) : prefixed child domain ≠ domain := by
  intro same
  have lengths : (child ++ "_" ++ domain).length = domain.length := congrArg String.length same
  simp [String.length_append] at lengths

variable (child : String)

/-- What becomes of the names in a child that declares `declared` when the domains of a list are
renamed, one after the other, if the child declares them by then. -/
def finalName : (collided declared : List String) → String → String
  | [], _ => id
  | d :: ds, declared =>
    if d ∈ declared then
      finalName ds (declared.map (swapName d (prefixed child d))) ∘ swapName d (prefixed child d)
    else finalName ds declared

/-- The names that a declared domain has in turn. -/
def trail : (collided : List String) → String → List String
  | [], x => [x]
  | d :: ds, x => if x = d then x :: trail ds (prefixed child d) else trail ds x

/-- What the declared domain `d` and the name `e` stand for is one domain in the end: `e` is `d`, or
it is not declared and `d` takes it on its way. -/
def Captures (collided declared : List String) (d e : String) : Prop :=
  e ∈ trail child collided d ∧ (e ∈ declared → e = d)

instance (collided declared : List String) (d e : String) :
    Decidable (Captures child collided declared d e) :=
  inferInstanceAs (Decidable (_ ∧ _))

theorem mem_trail_self (ds : List String) (x : String) : x ∈ trail child ds x := by
  induction ds with
  | nil => exact List.mem_singleton.mpr rfl
  | cons d ds ih =>
    rw [trail]
    split
    · exact List.mem_cons_self
    · exact ih

/-- All names on the trail but the first come from a collision. -/
theorem eq_prefixed_of_mem_trail {ds : List String} {x y : String} (on : y ∈ trail child ds x)
    (moved : y ≠ x) : ∃ d ∈ ds, y = prefixed child d := by
  induction ds generalizing x with
  | nil => exact absurd (List.mem_singleton.mp on) moved
  | cons d ds ih =>
    rw [trail] at on
    split at on
    next =>
      rcases List.mem_cons.mp on with rfl | later
      · exact absurd rfl moved
      · by_cases first : y = prefixed child d
        · exact ⟨d, List.mem_cons_self, first⟩
        · obtain ⟨e, he, same⟩ := ih later first
          exact ⟨e, List.mem_cons_of_mem d he, same⟩
    next =>
      obtain ⟨e, he, same⟩ := ih on moved
      exact ⟨e, List.mem_cons_of_mem d he, same⟩

theorem captures_self (ds declared : List String) (d : String) :
    Captures child ds declared d d :=
  ⟨mem_trail_self child ds d, fun _ => rfl⟩

section Step

variable {child} {k : String} {ks declared : List String}

/-- A name that is free for a declared domain is not declared. -/
theorem prefixed_not_mem (here : k ∈ declared)
    (distinct : (declared.map (swapName k (prefixed child k))).Nodup) :
    prefixed child k ∉ declared := by
  intro taken
  refine prefixed_ne child k (List.inj_on_of_nodup_map distinct taken here ?_)
  rw [swapName, if_neg (prefixed_ne child k), swapName, if_pos rfl]

theorem mem_map_swapName (here : k ∈ declared) {e : String} :
    e ∈ declared.map (swapName k (prefixed child k)) ↔
      e = prefixed child k ∨ e ∈ declared ∧ e ≠ k := by
  rw [List.mem_map]
  constructor
  · rintro ⟨d, hd, rfl⟩
    by_cases same : d = k
    · exact .inl (if_pos same)
    · rw [swapName, if_neg same]
      exact .inr ⟨hd, same⟩
  · rintro (rfl | ⟨he, other⟩)
    · exact ⟨k, here, if_pos rfl⟩
    · exact ⟨e, he, if_neg other⟩

/-- After a domain is renamed, each domain captures what it captured before. -/
theorem captures_cons (once : (k :: ks).Nodup) (here : k ∈ declared)
    (free : prefixed child k ∉ declared) {d : String} (hd : d ∈ declared) (e : String) :
    Captures child (k :: ks) declared d e ↔
      Captures child ks (declared.map (swapName k (prefixed child k)))
        (swapName k (prefixed child k) d) (swapName k (prefixed child k) e) := by
  have notNew : ∀ {x : String}, x ∈ declared → x ≠ prefixed child k := fun hx same =>
    free (same ▸ hx)
  simp only [Captures, mem_map_swapName here]
  by_cases mine : d = k
  · subst mine
    rw [trail, if_pos rfl, swapName, if_pos rfl, List.mem_cons]
    by_cases first : e = d
    · subst first
      simp [swapName, mem_trail_self]
    · rw [swapName, if_neg first]
      constructor
      · rintro ⟨on, undeclared⟩
        refine ⟨on.resolve_left first, ?_⟩
        rintro (new | ⟨he, -⟩)
        · exact new
        · exact absurd (undeclared he) first
      · rintro ⟨on, new⟩
        exact ⟨.inr on, fun he => absurd (new (.inr ⟨he, first⟩)) (notNew he)⟩
  · rw [trail, if_neg mine, swapName, if_neg mine]
    by_cases first : e = k
    · -- Neither side holds: the name of another declared domain is not captured.
      subst first
      rw [swapName, if_pos rfl]
      constructor
      · rintro ⟨-, same⟩
        exact absurd (same here).symm mine
      · rintro ⟨-, same⟩
        exact absurd (same (.inl rfl)).symm (notNew hd)
    · rw [swapName, if_neg first]
      refine and_congr_right fun on => ?_
      constructor
      · rintro same (rfl | ⟨he, -⟩)
        · -- The new name of `k` is not on the trail of `d`, since `k` collides only once.
          obtain ⟨x, hx, new⟩ := eq_prefixed_of_mem_trail child on (notNew hd).symm
          obtain rfl := prefixed_injective child new
          exact absurd hx (List.nodup_cons.mp once).1
        · exact same he
      · exact fun same he => same (.inr ⟨he, first⟩)

theorem exists_captures_cons (once : (k :: ks).Nodup) (here : k ∈ declared)
    (free : prefixed child k ∉ declared) (e e' : String) :
    (∃ d ∈ declared.map (swapName k (prefixed child k)),
      Captures child ks (declared.map (swapName k (prefixed child k))) d
        (swapName k (prefixed child k) e) ∧
      Captures child ks (declared.map (swapName k (prefixed child k))) d
        (swapName k (prefixed child k) e')) ↔
    ∃ d ∈ declared,
      Captures child (k :: ks) declared d e ∧ Captures child (k :: ks) declared d e' := by
  simp only [List.mem_map, exists_exists_and_eq_and]
  refine exists_congr fun d => and_congr_right fun hd => ?_
  rw [captures_cons once here free hd, captures_cons once here free hd]

end Step

/-- Two names become one exactly if a declared domain captures both. -/
theorem finalName_eq_iff {ds declared : List String} (once : ds.Nodup)
    (distinct : (declared.map (finalName child ds declared)).Nodup) (e e' : String) :
    finalName child ds declared e = finalName child ds declared e' ↔
      e = e' ∨ ∃ d ∈ declared,
        Captures child ds declared d e ∧ Captures child ds declared d e' := by
  induction ds generalizing declared e e' with
  | nil =>
    simp only [finalName, id_eq, Captures, trail, List.mem_singleton]
    refine ⟨.inl, ?_⟩
    rintro (same | ⟨d, -, ⟨first, -⟩, second, -⟩)
    · exact same
    · rw [first, second]
  | cons k ks ih =>
    by_cases here : k ∈ declared
    · rw [finalName, if_pos here] at distinct ⊢
      rw [← List.map_map] at distinct
      have free := prefixed_not_mem here (List.Nodup.of_map _ distinct)
      refine (ih (List.nodup_cons.mp once).2 distinct _ _).trans ?_
      rw [exists_captures_cons once here free]
      constructor
      · rintro (same | some)
        · by_cases equal : e = e'
          · exact .inl equal
          · -- Only `k` and its new name are renamed alike, and `k` captures both.
            have both : swapName k (prefixed child k) e = prefixed child k ∧
                swapName k (prefixed child k) e' = prefixed child k := by
              unfold swapName at same ⊢
              split at same <;> split at same <;> simp_all
            refine .inr ⟨k, here, ?_⟩
            rw [captures_cons once here free here, captures_cons once here free here, both.1,
              both.2, swapName, if_pos rfl]
            exact ⟨captures_self .., captures_self ..⟩
        · exact .inr some
      · rintro (rfl | some)
        · exact .inl rfl
        · exact .inr some
    · rw [finalName, if_neg here] at distinct ⊢
      refine (ih (List.nodup_cons.mp once).2 distinct _ _).trans (or_congr_right ?_)
      refine exists_congr fun d => and_congr_right fun hd => ?_
      have other : d ≠ k := fun same => here (same ▸ hd)
      simp only [Captures, trail, if_neg other]

/-! ### One domain after the other -/

/-- What becomes of a child's netlist when a domain collides. -/
def moved (n : Netlist) (d : String) : Netlist :=
  if d ∈ n.names then n.renameDomain d (prefixed child d) else n

theorem renamed_foldl_moved (ds : List String) (n : Netlist) :
    n.Renamed (finalName child ds n.names) (ds.foldl (moved child) n) := by
  induction ds generalizing n with
  | nil => exact n.renamed_id
  | cons d ds ih =>
    rw [List.foldl_cons, finalName, moved]
    split
    next =>
      have first := n.renamed_renameDomains (swapName d (prefixed child d))
      rw [← first.names_eq]
      exact first.trans (ih _)
    next => exact ih n

end Module

end Gateware
