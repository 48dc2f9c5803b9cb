import Gateware.Proofs.Statements
import Gateware.Simulation.Process
import Mathlib.Data.List.Induction
import Mathlib.Data.List.Nodup
import Mathlib.Data.List.Pairwise
import Mathlib.Logic.Relation

/-!
# The grouping of statements

Processes are the classes of statements that are linked by signals they assign in common. Which
statements make up a process does therefore not depend on their order, only the order inside a
process does.

## Main results

* `mem_map_places`: the groups are the classes of linked statements.
* `Reorders.ofStmts_perm`: an order that is kept within each process gives the same processes.

## Proof strategy

`Grouped` says what groups are after some of the statements, and `Grouped.regroup` that one more
statement keeps it. A new order maps classes to classes, each by one increasing list of places.
-/
namespace Gateware.Process

/-- The groups of statements that processes are made of. -/
def groups (ss : List Stmt) : List Group :=
  ss.zipIdx.foldl (fun groups (s, i) => regroup groups i s) []

/-- The places of a group's statements, in order. -/
def Group.places (g : Group) : List Nat := g.members.keys.toList

theorem Group.sorted (g : Group) : g.places.Pairwise (· < ·) :=
  g.members.keys.increasing.imp fun h => Nat.compare_eq_lt.mp h

theorem mem_places {g : Group} {i : Nat} : i ∈ g.places ↔ ∃ s, g.members.get? i = some s := by
  rw [Group.places, OrdSet.mem_toList, OrdMap.mem_keys, Option.isSome_iff_exists]

/-- The statements at two places assign a common signal. -/
def Overlap (ss : List Stmt) (i j : Nat) : Prop :=
  ∃ s, ss[i]? = some s ∧ ∃ t, ss[j]? = some t ∧ ∃ x ∈ Stmt.assigned [s], x ∈ Stmt.assigned [t]

/-- A chain of statements leads from one place to another, each overlapping the next. -/
def Linked (ss : List Stmt) : Nat → Nat → Prop := Relation.ReflTransGen (Overlap ss)

theorem Overlap.symm {ss : List Stmt} {i j : Nat} : Overlap ss i j → Overlap ss j i := by
  rintro ⟨s, hs, t, ht, x, own, other⟩
  exact ⟨t, ht, s, hs, x, other, own⟩

theorem Linked.symm {ss : List Stmt} {i j : Nat} (h : Linked ss i j) : Linked ss j i := by
  have : Std.Symm (Overlap ss) := ⟨fun _ _ => Overlap.symm⟩
  exact Relation.ReflTransGen.stdSymm.symm _ _ h

theorem Overlap.append {ss : List Stmt} {i j : Nat} (ts : List Stmt) :
    Overlap ss i j → Overlap (ss ++ ts) i j := by
  rintro ⟨s, hs, t, ht, common⟩
  refine ⟨s, ?_, t, ?_, common⟩
  · rw [List.getElem?_append_left (List.getElem?_eq_some_iff.mp hs).1, hs]
  · rw [List.getElem?_append_left (List.getElem?_eq_some_iff.mp ht).1, ht]

theorem Linked.append {ss : List Stmt} {i j : Nat} (ts : List Stmt) (h : Linked ss i j) :
    Linked (ss ++ ts) i j :=
  Relation.ReflTransGen.mono (fun _ _ => Overlap.append ts) _ _ h

theorem groups_concat (ss : List Stmt) (s : Stmt) :
    groups (ss ++ [s]) = regroup (groups ss) ss.length s := by
  simp [groups, List.zipIdx_append]

/-- Two groups share neither a signal nor a place. -/
def Group.Separate (g h : Group) : Prop :=
  (∀ x ∈ g.writes, x ∉ h.writes) ∧ ∀ i ∈ g.places, i ∉ h.places

instance : Std.Symm Group.Separate where
  symm _ _ h := ⟨fun x hx hy => h.1 x hy hx, fun i hi hj => h.2 i hj hi⟩

/-- What holds of the groups of statements, however many have been put into groups. -/
structure Grouped (ss : List Stmt) (gs : List Group) : Prop where
  members : ∀ g ∈ gs, ∀ i s, g.members.get? i = some s → ss[i]? = some s
  covered : ∀ i s, ss[i]? = some s → ∃ g ∈ gs, g.members.get? i = some s
  occupied : ∀ g ∈ gs, ∃ i, i ∈ g.places
  writes : ∀ g ∈ gs, ∀ x,
    x ∈ g.writes ↔ ∃ i s, g.members.get? i = some s ∧ x ∈ Stmt.assigned [s]
  separate : gs.Pairwise Group.Separate
  linked : ∀ g ∈ gs, ∀ i ∈ g.places, ∀ j ∈ g.places, Linked ss i j

/-- The group that a statement forms with those it touches. -/
def joined (gs : List Group) (place : Nat) (s : Stmt) : Group :=
  let touched := gs.filter fun g => !(Stmt.assigned [s]).disjoint g.writes
  { members := touched.foldl (fun m g => m.override g.members) (.ofList [(place, s)])
    writes := touched.foldl (fun w g => w ∪ g.writes) (Stmt.assigned [s]) }

/-- A group assigns a signal that a statement assigns. -/
def Touched (s : Stmt) (g : Group) : Prop := ∃ x ∈ Stmt.assigned [s], x ∈ g.writes

theorem touched_iff {s : Stmt} {g : Group} :
    (!(Stmt.assigned [s]).disjoint g.writes) = true ↔ Touched s g := by
  rw [Bool.not_eq_true', ← Bool.not_eq_true, OrdSet.disjoint_iff]
  simp only [Touched, not_forall, not_not, exists_prop]

theorem mem_regroup {gs : List Group} {place : Nat} {s : Stmt} {g : Group} :
    g ∈ regroup gs place s ↔ (g ∈ gs ∧ ¬ Touched s g) ∨ g = joined gs place s := by
  simp only [regroup, List.mem_append, List.mem_filter, List.mem_singleton, ← touched_iff,
    Bool.not_eq_true, Bool.not_eq_false', joined]

theorem mem_writes_joined {gs : List Group} {place : Nat} {s : Stmt} {x : Signal} :
    x ∈ (joined gs place s).writes ↔
      x ∈ Stmt.assigned [s] ∨ ∃ g ∈ gs, Touched s g ∧ x ∈ g.writes := by
  simp only [joined, OrdSet.mem_foldl_union, List.mem_filter, touched_iff, and_assoc]

namespace Grouped

variable {ss : List Stmt} {gs : List Group} {s : Stmt}

theorem place_lt (h : Grouped ss gs) {g : Group} (hg : g ∈ gs) {i : Nat} (hi : i ∈ g.places) :
    i < ss.length := by
  obtain ⟨t, member⟩ := mem_places.mp hi
  exact (List.getElem?_eq_some_iff.mp (h.members g hg i t member)).1

/-- Two groups with a common signal are the same. -/
theorem eq_of_common (h : Grouped ss gs) {g k : Group} (hg : g ∈ gs) (hk : k ∈ gs) {x : Signal}
    (own : x ∈ g.writes) (other : x ∈ k.writes) : g = k := by
  by_contra differ
  exact (h.separate.forall hg hk differ).1 x own other

theorem eq_of_place (h : Grouped ss gs) {g k : Group} (hg : g ∈ gs) (hk : k ∈ gs) {i : Nat}
    (own : i ∈ g.places) (other : i ∈ k.places) : g = k := by
  by_contra differ
  exact (h.separate.forall hg hk differ).2 i own other

theorem members_append (h : Grouped ss gs) {g : Group} (hg : g ∈ gs) {i : Nat} {t : Stmt}
    (member : g.members.get? i = some t) : (ss ++ [s])[i]? = some t := by
  have old := h.members g hg i t member
  rwa [List.getElem?_append_left (List.getElem?_eq_some_iff.mp old).1]

theorem get?_joined (h : Grouped ss gs) (i : Nat) (t : Stmt) :
    (joined gs ss.length s).members.get? i = some t ↔
      (i = ss.length ∧ t = s) ∨ ∃ g ∈ gs, Touched s g ∧ g.members.get? i = some t := by
  have alone : ∀ j u, (OrdMap.ofList [(ss.length, s)]).get? j = some u ↔
      j = ss.length ∧ u = s := by
    intro j u
    change (OrdMap.insert ∅ ss.length s).get? j = some u ↔ _
    rw [OrdMap.get?_insert, OrdMap.get?_empty]
    by_cases here : j = ss.length
    · simp [here, eq_comm]
    · simp [here]
  rw [joined, OrdMap.get?_foldl_override (F := ((ss ++ [s])[·]?)), alone]
  · simp only [List.mem_filter, touched_iff, and_assoc]
  · intro j u hu
    obtain ⟨rfl, rfl⟩ := (alone j u).mp hu
    exact List.getElem?_concat_length
  · intro g hg j u member
    exact h.members_append (List.mem_filter.mp hg).1 member

theorem mem_places_joined (h : Grouped ss gs) {i : Nat} :
    i ∈ (joined gs ss.length s).places ↔
      i = ss.length ∨ ∃ g ∈ gs, Touched s g ∧ i ∈ g.places := by
  simp only [mem_places, h.get?_joined]
  constructor
  · rintro ⟨t, ⟨rfl, -⟩ | ⟨g, hg, touched, member⟩⟩
    · exact .inl rfl
    · exact .inr ⟨g, hg, touched, t, member⟩
  · rintro (rfl | ⟨g, hg, touched, t, member⟩)
    · exact ⟨s, .inl ⟨rfl, rfl⟩⟩
    · exact ⟨t, .inr ⟨g, hg, touched, member⟩⟩

/-- Every statement of the new group is linked to the one that is put in. -/
theorem linked_joined (h : Grouped ss gs) {i : Nat}
    (hi : i ∈ (joined gs ss.length s).places) : Linked (ss ++ [s]) i ss.length := by
  rcases h.mem_places_joined.mp hi with rfl | ⟨g, hg, ⟨x, own, common⟩, member⟩
  · exact .refl
  · obtain ⟨j, t, hj, assigned⟩ := (h.writes g hg x).mp common
    have chain := (h.linked g hg i member j (mem_places.mpr ⟨t, hj⟩)).append [s]
    exact chain.tail ⟨t, h.members_append hg hj, s, by simp, x, assigned, own⟩

/-- Putting one more statement into its group keeps the groups in order. -/
theorem regroup (h : Grouped ss gs) : Grouped (ss ++ [s]) (regroup gs ss.length s) where
  members g hg i t ht := by
    rcases mem_regroup.mp hg with ⟨hg, -⟩ | rfl
    · exact h.members_append hg ht
    · rcases (h.get?_joined i t).mp ht with ⟨rfl, rfl⟩ | ⟨k, hk, -, member⟩
      · exact List.getElem?_concat_length
      · exact h.members_append hk member
  covered i t ht := by
    rcases Nat.lt_or_ge i ss.length with old | new
    · rw [List.getElem?_append_left old] at ht
      obtain ⟨g, hg, member⟩ := h.covered i t ht
      by_cases touched : Touched s g
      · exact ⟨_, mem_regroup.mpr (.inr rfl),
          (h.get?_joined i t).mpr (.inr ⟨g, hg, touched, member⟩)⟩
      · exact ⟨g, mem_regroup.mpr (.inl ⟨hg, touched⟩), member⟩
    · have bound := (List.getElem?_eq_some_iff.mp ht).1
      have last : i = ss.length := by
        rw [List.length_append, List.length_singleton] at bound
        omega
      subst last
      simp only [List.getElem?_concat_length, Option.some.injEq] at ht
      exact ⟨_, mem_regroup.mpr (.inr rfl), (h.get?_joined _ t).mpr (.inl ⟨rfl, ht.symm⟩)⟩
  occupied g hg := by
    rcases mem_regroup.mp hg with ⟨hg, -⟩ | rfl
    · exact h.occupied g hg
    · exact ⟨ss.length, h.mem_places_joined.mpr (.inl rfl)⟩
  writes g hg x := by
    rcases mem_regroup.mp hg with ⟨hg, -⟩ | rfl
    · exact h.writes g hg x
    · rw [mem_writes_joined]
      constructor
      · rintro (own | ⟨k, hk, touched, other⟩)
        · exact ⟨ss.length, s, (h.get?_joined _ _).mpr (.inl ⟨rfl, rfl⟩), own⟩
        · obtain ⟨i, t, member, assigned⟩ := (h.writes k hk x).mp other
          exact ⟨i, t, (h.get?_joined i t).mpr (.inr ⟨k, hk, touched, member⟩), assigned⟩
      · rintro ⟨i, t, member, assigned⟩
        rcases (h.get?_joined i t).mp member with ⟨rfl, rfl⟩ | ⟨k, hk, touched, member⟩
        · exact .inl assigned
        · exact .inr ⟨k, hk, touched, (h.writes k hk x).mpr ⟨i, t, member, assigned⟩⟩
  separate := by
    refine List.pairwise_append.mpr
      ⟨h.separate.sublist List.filter_sublist, List.pairwise_singleton .., ?_⟩
    intro g hg k hk
    cases List.mem_singleton.mp hk
    obtain ⟨hg, free⟩ := List.mem_filter.mp hg
    have untouched : ¬ Touched s g := by
      rw [← touched_iff, free]
      simp
    -- A group that is left alone differs from all those that are joined.
    constructor
    · intro x own other
      rcases mem_writes_joined.mp other with assigned | ⟨k, hk, touched, other⟩
      · exact untouched ⟨x, assigned, own⟩
      · exact untouched (h.eq_of_common hg hk own other ▸ touched)
    · intro i own other
      rcases h.mem_places_joined.mp other with rfl | ⟨k, hk, touched, other⟩
      · exact Nat.lt_irrefl _ (h.place_lt hg own)
      · exact untouched (h.eq_of_place hg hk own other ▸ touched)
  linked g hg i hi j hj := by
    rcases mem_regroup.mp hg with ⟨hg, -⟩ | rfl
    · exact (h.linked g hg i hi j hj).append [s]
    · exact (h.linked_joined hi).trans (h.linked_joined hj).symm

end Grouped

theorem grouped (ss : List Stmt) : Grouped ss (groups ss) := by
  induction ss using List.reverseRecOn with
  | nil => constructor <;> simp [groups]
  | append_singleton ss s ih =>
    rw [groups_concat]
    exact ih.regroup

/-! ### Classes of statements -/

/-- The places of all statements linked to one of them, in order. -/
def IsClass (ss : List Stmt) (places : List Nat) : Prop :=
  places.Pairwise (· < ·) ∧ ∃ i, i < ss.length ∧ ∀ j, j ∈ places ↔ Linked ss i j

theorem eq_of_increasing {xs ys : List Nat} (hx : xs.Pairwise (· < ·)) (hy : ys.Pairwise (· < ·))
    (h : ∀ i, i ∈ xs ↔ i ∈ ys) : xs = ys := by
  have perm := (List.perm_ext_iff_of_nodup (hx.imp Nat.ne_of_lt) (hy.imp Nat.ne_of_lt)).mpr h
  exact perm.eq_of_pairwise (fun _ _ _ _ ab ba => absurd ab (Nat.lt_asymm ba)) hx hy

theorem exists_group {ss : List Stmt} {i : Nat} (hi : i < ss.length) :
    ∃ g ∈ groups ss, i ∈ g.places := by
  obtain ⟨g, hg, member⟩ := (grouped ss).covered i ss[i] (List.getElem?_eq_getElem hi)
  exact ⟨g, hg, mem_places.mpr ⟨ss[i], member⟩⟩

/-- A group holds all statements that are linked to one of its own. -/
theorem mem_places_of_linked {ss : List Stmt} {g : Group} (hg : g ∈ groups ss) {i j : Nat}
    (hi : i ∈ g.places) (linked : Linked ss i j) : j ∈ g.places := by
  have h := grouped ss
  induction linked with
  | refl => exact hi
  | @tail b c _ overlap ih =>
    obtain ⟨s, hs, t, ht, x, own, other⟩ := overlap
    obtain ⟨u, hu⟩ := mem_places.mp ih
    have same := h.members g hg b u hu
    rw [hs] at same
    cases same
    obtain ⟨k, hk, member⟩ := h.covered c t ht
    have common := h.eq_of_common hg hk ((h.writes g hg x).mpr ⟨b, s, hu, own⟩)
      ((h.writes k hk x).mpr ⟨c, t, member, other⟩)
    subst common
    exact mem_places.mpr ⟨t, member⟩

theorem Group.isClass {ss : List Stmt} {g : Group} (hg : g ∈ groups ss) :
    IsClass ss g.places := by
  have h := grouped ss
  obtain ⟨i, base⟩ := h.occupied g hg
  refine ⟨g.sorted, i, h.place_lt hg base, fun j => ⟨h.linked g hg _ base j, ?_⟩⟩
  exact mem_places_of_linked hg base

/-- The groups are the classes of linked statements. -/
theorem mem_map_places {ss : List Stmt} {places : List Nat} :
    places ∈ (groups ss).map Group.places ↔ IsClass ss places := by
  constructor
  · intro member
    obtain ⟨g, hg, rfl⟩ := List.mem_map.mp member
    exact g.isClass hg
  · rintro ⟨sorted, i, hi, members⟩
    obtain ⟨g, hg, base⟩ := exists_group hi
    refine List.mem_map.mpr ⟨g, hg, eq_of_increasing g.sorted sorted fun j => ?_⟩
    rw [members]
    exact ⟨(grouped ss).linked g hg i base j, mem_places_of_linked hg base⟩

theorem nodup_map_places (ss : List Stmt) : ((groups ss).map Group.places).Nodup := by
  refine List.pairwise_map.mpr ((grouped ss).separate.imp_of_mem fun {g k} hg hk apart equal => ?_)
  obtain ⟨i, base⟩ := (grouped ss).occupied g hg
  exact apart.2 i base (equal ▸ base)

/-- The process of the statements at some places. -/
def atPlaces (ss : List Stmt) (places : List Nat) : Process :=
  .logic (places.filterMap (ss[·]?)) (Stmt.assigned (places.filterMap (ss[·]?)))

theorem ofStmts_eq (ss : List Stmt) :
    ofStmts ss = ((groups ss).map Group.places).map (atPlaces ss) := by
  rw [List.map_map]
  refine List.map_congr_left fun g hg => ?_
  have h := grouped ss
  have body : g.places.filterMap (ss[·]?) = g.members.values := by
    rw [Group.places, OrdMap.keys, List.filterMap_map, OrdMap.values, ← List.filterMap_eq_map]
    exact List.filterMap_congr fun m hm => h.members g hg m.1 m.2 (OrdMap.get?_eq_some_iff.mpr hm)
  have writes : g.writes = Stmt.assigned g.members.values := by
    refine OrdSet.ext_mem fun x => ?_
    rw [h.writes g hg, Stmt.mem_assigned]
    simp only [OrdMap.values, List.mem_map, OrdMap.get?_eq_some_iff]
    constructor
    · rintro ⟨i, t, member, assigned⟩
      exact ⟨t, ⟨(i, t), member, rfl⟩, assigned⟩
    · rintro ⟨t, ⟨⟨i, u⟩, member, rfl⟩, assigned⟩
      exact ⟨i, u, member, assigned⟩
  simp only [Function.comp, atPlaces, body, writes]

/-- A process consists of some of the statements and drives what they assign. -/
theorem mem_ofStmts {ss : List Stmt} {p : Process} (h : p ∈ ofStmts ss) :
    ∃ body, p = .logic body (Stmt.assigned body) ∧ ∀ s ∈ body, s ∈ ss := by
  rw [ofStmts_eq] at h
  obtain ⟨places, -, rfl⟩ := List.mem_map.mp h
  refine ⟨places.filterMap (ss[·]?), rfl, fun s hs => ?_⟩
  obtain ⟨i, -, hi⟩ := List.mem_filterMap.mp hs
  exact List.mem_of_getElem? hi

/-- Two statements in front that assign a common signal are the first ones of a process. -/
theorem exists_front_process {a b : Stmt} (rest : List Stmt) {x : Signal}
    (own : x ∈ Stmt.assigned [a]) (other : x ∈ Stmt.assigned [b]) :
    ∃ more, (∀ s ∈ more, s ∈ rest) ∧
      .logic (a :: b :: more) (Stmt.assigned (a :: b :: more)) ∈ ofStmts (a :: b :: rest) := by
  have inside : 0 < (a :: b :: rest).length := Nat.zero_lt_succ _
  obtain ⟨g, hg, first⟩ := exists_group inside
  have second : 1 ∈ g.places :=
    mem_places_of_linked hg first (.single ⟨a, rfl, b, rfl, x, own, other⟩)
  -- The places are in order, so the two come first.
  obtain ⟨later, places⟩ : ∃ later, g.places = 0 :: 1 :: later := by
    have sorted := g.sorted
    match g.places, first, second, sorted with
    | i :: is, first, second, sorted =>
      obtain ⟨least, sorted⟩ := List.pairwise_cons.mp sorted
      have hi : i = 0 := by
        rcases List.mem_cons.mp first with same | later
        · exact same.symm
        · exact absurd (least 0 later) (Nat.not_lt_zero i)
      have one : 1 ∈ is := (List.mem_cons.mp second).resolve_left (by omega)
      match is, one, least, sorted with
      | j :: js, one, least, sorted =>
        have positive := least j (.head _)
        have hj : j = 1 := by
          rcases List.mem_cons.mp one with same | later
          · exact same.symm
          · have := (List.pairwise_cons.mp sorted).1 1 later
            omega
        exact ⟨js, by rw [hi, hj]⟩
  refine ⟨later.filterMap ((a :: b :: rest)[·]?), fun s hs => ?_, ?_⟩
  · obtain ⟨i, hi, found⟩ := List.mem_filterMap.mp hs
    have sorted := g.sorted
    rw [places] at sorted
    have past := (List.pairwise_cons.mp (List.pairwise_cons.mp sorted).2).1 i hi
    obtain ⟨k, rfl⟩ : ∃ k, i = k + 2 := ⟨i - 2, by omega⟩
    exact List.mem_of_getElem? found
  · rw [ofStmts_eq]
    refine List.mem_map.mpr ⟨g.places, List.mem_map_of_mem hg, ?_⟩
    rw [places]
    rfl

/-- The process of a statement among the last ones goes on with some of the last ones. -/
theorem exists_process_of_mem (first : List Stmt) {last : List Stmt} {u : Stmt} (hu : u ∈ last) :
    ∃ pre post, (∀ s ∈ pre ++ u :: post, s ∈ first ++ last) ∧ (∀ s ∈ post, s ∈ last) ∧
      .logic (pre ++ u :: post) (Stmt.assigned (pre ++ u :: post)) ∈ ofStmts (first ++ last) := by
  obtain ⟨i, inside, rfl⟩ := List.mem_iff_getElem.mp hu
  have here : (first ++ last)[first.length + i]? = some last[i] := by
    rw [List.getElem?_append_right (Nat.le_add_right ..), Nat.add_sub_cancel_left,
      List.getElem?_eq_getElem inside]
  obtain ⟨g, hg, place⟩ := exists_group (List.getElem?_eq_some_iff.mp here).1
  obtain ⟨before, behind, places⟩ := List.append_of_mem place
  refine ⟨before.filterMap ((first ++ last)[·]?), behind.filterMap ((first ++ last)[·]?),
    ?_, ?_, ?_⟩
  · intro s hs
    simp only [List.mem_append, List.mem_cons, List.mem_filterMap] at hs
    rcases hs with ⟨j, -, found⟩ | rfl | ⟨j, -, found⟩
    · exact List.mem_of_getElem? found
    · exact List.mem_of_getElem? here
    · exact List.mem_of_getElem? found
  · intro s hs
    obtain ⟨j, hj, found⟩ := List.mem_filterMap.mp hs
    -- The places are in order, so what comes behind stands further back.
    have sorted := g.sorted
    rw [places] at sorted
    have later := (List.pairwise_cons.mp (List.pairwise_append.mp sorted).2.1).1 j hj
    rw [List.getElem?_append_right (by omega)] at found
    exact List.mem_of_getElem? found
  · rw [ofStmts_eq]
    refine List.mem_map.mpr ⟨g.places, List.mem_map_of_mem hg, ?_⟩
    simp only [atPlaces, places, List.filterMap_append, List.filterMap_cons, here]

/-! ### Reordered statements -/

/-- The statements at two places belong to one process. -/
def Together (ss : List Stmt) (i j : Nat) : Prop :=
  ∃ g ∈ groups ss, i ∈ g.places ∧ j ∈ g.places

instance (ss : List Stmt) (i j : Nat) : Decidable (Together ss i j) :=
  inferInstanceAs (Decidable (∃ g ∈ groups ss, i ∈ g.places ∧ j ∈ g.places))

theorem Linked.together {ss : List Stmt} {i j : Nat} (hi : i < ss.length) (h : Linked ss i j) :
    Together ss i j := by
  obtain ⟨g, hg, base⟩ := exists_group hi
  exact ⟨g, hg, base, mem_places_of_linked hg base h⟩

/-- The statements are put into another order, which lists the places they come from and keeps the
order within every process. -/
structure Reorders (ss : List Stmt) (order : List Nat) : Prop where
  perm : order.Perm (List.range ss.length)
  keeps : order.Pairwise fun i j => Together ss i j → i < j

instance (ss : List Stmt) (order : List Nat) : Decidable (Reorders ss order) :=
  decidable_of_iff (order.Perm (List.range ss.length) ∧
    order.Pairwise fun i j => Together ss i j → i < j) ⟨fun h => ⟨h.1, h.2⟩, fun h => ⟨h.1, h.2⟩⟩

/-- The statements in an order. -/
def inOrder (ss : List Stmt) (order : List Nat) : List Stmt := order.filterMap (ss[·]?)

theorem getElem?_filterMap_of_some {α β : Type} {f : α → Option β} {xs : List α}
    (h : ∀ x ∈ xs, ∃ y, f x = some y) (k : Nat) : (xs.filterMap f)[k]? = xs[k]?.bind f := by
  induction xs generalizing k with
  | nil => simp
  | cons x xs ih =>
    obtain ⟨y, hy⟩ := h x (by simp)
    rw [List.filterMap_cons_some hy]
    cases k with
    | zero => simp [hy]
    | succ k => simpa using ih (fun x hx => h x (List.mem_cons_of_mem _ hx)) k

namespace Reorders

variable {ss : List Stmt} {order : List Nat} (h : Reorders ss order)

include h

theorem nodup : order.Nodup := h.perm.nodup_iff.mpr List.nodup_range

theorem mem_iff {i : Nat} : i ∈ order ↔ i < ss.length := by
  rw [h.perm.mem_iff, List.mem_range]

theorem placed (k : Nat) : (inOrder ss order)[k]? = order[k]?.bind (ss[·]?) :=
  getElem?_filterMap_of_some (fun _ hi => ⟨_, List.getElem?_eq_getElem (h.mem_iff.mp hi)⟩) k

/-- A place comes from the same place in both orders only once. -/
theorem place_inj {k l i : Nat} (hk : order[k]? = some i) (hl : order[l]? = some i) : k = l := by
  obtain ⟨hk, rfl⟩ := List.getElem?_eq_some_iff.mp hk
  obtain ⟨hl, same⟩ := List.getElem?_eq_some_iff.mp hl
  exact (h.nodup.getElem_inj_iff.mp same).symm

theorem length_eq : (inOrder ss order).length = order.length :=
  List.filterMap_length_eq_length.mpr fun i hi => by
    simp [List.getElem?_eq_getElem (h.mem_iff.mp hi)]

theorem linked {k l i : Nat} (hk : order[k]? = some i) (chain : Linked (inOrder ss order) k l) :
    ∃ j, order[l]? = some j ∧ Linked ss i j := by
  induction chain with
  | refl => exact ⟨i, hk, .refl⟩
  | tail _ overlap ih =>
    obtain ⟨j, hj, chain⟩ := ih
    obtain ⟨s, hs, t, ht, common⟩ := overlap
    rw [h.placed, hj] at hs
    obtain ⟨m, hm, ht⟩ := Option.bind_eq_some_iff.mp (h.placed _ ▸ ht)
    exact ⟨m, hm, chain.tail ⟨s, hs, t, ht, common⟩⟩

theorem of_linked {k i j : Nat} (hk : order[k]? = some i) (chain : Linked ss i j) :
    ∃ l, order[l]? = some j ∧ Linked (inOrder ss order) k l := by
  induction chain with
  | refl => exact ⟨k, hk, .refl⟩
  | @tail a b _ overlap ih =>
    obtain ⟨l, hl, chain⟩ := ih
    obtain ⟨s, hs, t, ht, common⟩ := overlap
    have inside : b ∈ order := h.mem_iff.mpr (List.getElem?_eq_some_iff.mp ht).1
    obtain ⟨m, hm⟩ := List.mem_iff_getElem?.mp inside
    refine ⟨m, hm, chain.tail ⟨s, ?_, t, ?_, common⟩⟩
    · rw [h.placed, hl]
      exact hs
    · rw [h.placed, hm]
      exact ht

/-- The statements of a class come from those of a class. -/
theorem isClass {places : List Nat} (old : IsClass (inOrder ss order) places) :
    IsClass ss (places.filterMap (order[·]?)) := by
  obtain ⟨sorted, k, hk, members⟩ := old
  rw [h.length_eq] at hk
  have hi : order[k]? = some order[k] := List.getElem?_eq_getElem hk
  have inside : ∀ {l j : Nat}, order[l]? = some j → j < ss.length := fun hl =>
    h.mem_iff.mp (List.mem_of_getElem? hl)
  refine ⟨?_, order[k], inside hi, fun j => ?_⟩
  · refine List.Pairwise.filterMap _ ?_ (sorted.imp_of_mem (S := fun a b =>
      a < b ∧ Linked (inOrder ss order) k a ∧ Linked (inOrder ss order) k b)
      fun ha hb lt => ⟨lt, (members _).mp ha, (members _).mp hb⟩)
    rintro a b ⟨lt, ka, kb⟩ i hi' j hj
    -- Places of one process keep their order.
    obtain ⟨j', hj', chain⟩ := h.linked hi' (ka.symm.trans kb)
    cases hj.symm.trans hj'
    obtain ⟨ha, rfl⟩ := List.getElem?_eq_some_iff.mp hi'
    obtain ⟨hb, rfl⟩ := List.getElem?_eq_some_iff.mp hj
    exact List.pairwise_iff_getElem.mp h.keeps a b ha hb lt (chain.together (inside hi'))
  · rw [List.mem_filterMap]
    constructor
    · rintro ⟨l, hl, hj⟩
      obtain ⟨j', hj', chain⟩ := h.linked hi ((members l).mp hl)
      cases hj.symm.trans hj'
      exact chain
    · intro chain
      obtain ⟨l, hl, chain⟩ := h.of_linked hi chain
      exact ⟨l, (members l).mpr chain, hl⟩

theorem image_inj {xs ys : List Nat} (hx : IsClass (inOrder ss order) xs)
    (hy : IsClass (inOrder ss order) ys)
    (same : xs.filterMap (order[·]?) = ys.filterMap (order[·]?)) : xs = ys := by
  have back : ∀ {us vs : List Nat}, IsClass (inOrder ss order) us →
      us.filterMap (order[·]?) = vs.filterMap (order[·]?) → ∀ k ∈ us, k ∈ vs := by
    rintro us vs ⟨-, k, hk, members⟩ same l hl
    rw [h.length_eq] at hk
    obtain ⟨j, hj, -⟩ := h.linked (List.getElem?_eq_getElem hk) ((members l).mp hl)
    have image : j ∈ vs.filterMap (order[·]?) := same ▸ List.mem_filterMap.mpr ⟨l, hl, hj⟩
    obtain ⟨m, hm, from_m⟩ := List.mem_filterMap.mp image
    exact h.place_inj from_m hj ▸ hm
  exact eq_of_increasing hx.1 hy.1 fun k => ⟨back hx same k, back hy same.symm k⟩

theorem places_perm :
    (((groups (inOrder ss order)).map Group.places).map (·.filterMap (order[·]?))).Perm
      ((groups ss).map Group.places) := by
  refine (List.perm_ext_iff_of_nodup ?_ (nodup_map_places ss)).mpr fun places => ?_
  · refine List.Nodup.map_on (fun xs hx ys hy => ?_) (nodup_map_places _)
    exact h.image_inj (mem_map_places.mp hx) (mem_map_places.mp hy)
  · rw [mem_map_places, List.mem_map]
    constructor
    · rintro ⟨xs, hx, rfl⟩
      exact h.isClass (mem_map_places.mp hx)
    · rintro ⟨sorted, i, hi, members⟩
      obtain ⟨k, hk⟩ := List.mem_iff_getElem?.mp (h.mem_iff.mpr hi)
      have inside : k < (inOrder ss order).length := by
        rw [h.length_eq]
        exact (List.getElem?_eq_some_iff.mp hk).1
      obtain ⟨g, hg, base⟩ := exists_group inside
      have image := h.isClass (g.isClass hg)
      have start : i ∈ g.places.filterMap (order[·]?) := List.mem_filterMap.mpr ⟨k, base, hk⟩
      refine ⟨g.places, List.mem_map.mpr ⟨g, hg, rfl⟩, eq_of_increasing image.1 sorted fun j => ?_⟩
      obtain ⟨i', -, members'⟩ := image.2
      rw [members', members]
      have link := (members' i).mp start
      exact ⟨fun chain => link.symm.trans chain, fun chain => link.trans chain⟩

/-- Statements in another order form the same processes. -/
theorem ofStmts_perm : (ofStmts (inOrder ss order)).Perm (ofStmts ss) := by
  have bodies : ∀ places : List Nat,
      atPlaces (inOrder ss order) places = atPlaces ss (places.filterMap (order[·]?)) := by
    intro places
    have same : places.filterMap ((inOrder ss order)[·]?) =
        (places.filterMap (order[·]?)).filterMap (ss[·]?) := by
      rw [List.filterMap_filterMap]
      exact List.filterMap_congr fun k _ => h.placed k
    rw [atPlaces, atPlaces, same]
  have listed := h.places_perm.map (atPlaces ss)
  rw [List.map_map] at listed
  rw [ofStmts_eq, ofStmts_eq, funext bodies]
  exact listed

end Reorders

end Gateware.Process
