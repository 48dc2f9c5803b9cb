import Gateware.Proofs.Conflicts
import Gateware.Proofs.Grouping

/-!
# Processes as classes of statements

Processes are built by joining groups one statement at a time. What comes out is compared with the
partition that the signals alone decide on: two statements belong together if a chain of statements
connects them in which neighbours set a common signal.

## Main results

`ofStmts_partitions`: the processes are the classes of connected statements. Each has its statements
in order and drives what they set, and no two drive the same signal.
-/
namespace Gateware

/-- The statement sets `x`, under whatever conditions. -/
def Stmt.Sets (s : Stmt) (x : Signal) : Prop := ∃ t, s.Assigns t ∧ t.Drives x

theorem Stmt.mem_assigned_singleton {s : Stmt} {x : Signal} : x ∈ assigned [s] ↔ s.Sets x := by
  simp only [assigned, OrdSet.mem_ofList, List.mem_flatMap, mem_targetsOf_iff, Expr.mem_drives_iff,
    List.mem_singleton, exists_eq_left, Sets]

namespace Process

variable {ss : List Stmt}

/-! ### Connected statements -/

/-- The statements at two places set a common signal. -/
def Meets (ss : List Stmt) (i j : Nat) : Prop :=
  ∃ s t x, ss[i]? = some s ∧ ss[j]? = some t ∧ s.Sets x ∧ t.Sets x

/-- A chain of statements leads from one place to another, each of them meeting the next. -/
def Connected (ss : List Stmt) : Nat → Nat → Prop := Relation.ReflTransGen (Meets ss)

theorem overlap_iff {i j : Nat} : Overlap ss i j ↔ Meets ss i j := by
  simp only [Overlap, Stmt.mem_assigned_singleton]
  constructor
  · rintro ⟨s, hs, t, ht, x, own, other⟩
    exact ⟨s, t, x, hs, ht, own, other⟩
  · rintro ⟨s, t, x, hs, ht, own, other⟩
    exact ⟨s, hs, t, ht, x, own, other⟩

theorem linked_iff {i j : Nat} : Linked ss i j ↔ Connected ss i j := by
  have same : Overlap ss = Meets ss := funext₂ fun _ _ => propext overlap_iff
  rw [Linked, Connected, same]

/-! ### Classes of places -/

/-- Lists of places that divide statements into classes of connected ones. Every place is in one
list only, and the places of a list are in order. -/
structure Partitions (ss : List Stmt) (parts : List (List Nat)) : Prop where
  once : parts.flatten.Perm (List.range ss.length)
  occupied : [] ∉ parts
  ordered : ∀ places ∈ parts, places.Pairwise (· < ·)
  connected : ∀ i < ss.length, ∀ j,
    (∃ places ∈ parts, i ∈ places ∧ j ∈ places) ↔ Connected ss i j

theorem mem_flatten_places {i : Nat} :
    i ∈ ((groups ss).map Group.places).flatten ↔ i < ss.length := by
  simp only [List.mem_flatten, List.mem_map, exists_exists_and_eq_and]
  constructor
  · rintro ⟨g, hg, member⟩
    exact (grouped ss).place_lt hg member
  · exact exists_group

theorem nodup_flatten_places (ss : List Stmt) : ((groups ss).map Group.places).flatten.Nodup := by
  refine List.nodup_flatten.mpr ⟨fun places member => ?_, List.pairwise_map.mpr ?_⟩
  · obtain ⟨g, -, rfl⟩ := List.mem_map.mp member
    exact g.sorted.imp Nat.ne_of_lt
  · exact (grouped ss).separate.imp fun apart i own other => apart.2 i own other

/-- Two places are in one group if and only if they are connected. -/
theorem together_iff {i j : Nat} (inside : i < ss.length) :
    Together ss i j ↔ Connected ss i j := by
  rw [← linked_iff]
  constructor
  · rintro ⟨g, hg, hi, hj⟩
    exact (grouped ss).linked g hg i hi j hj
  · exact fun chain => chain.together inside

theorem partitions_places (ss : List Stmt) : Partitions ss ((groups ss).map Group.places) where
  once := by
    refine (List.perm_ext_iff_of_nodup (nodup_flatten_places ss) List.nodup_range).mpr fun i => ?_
    rw [mem_flatten_places, List.mem_range]
  occupied empty := by
    obtain ⟨g, hg, none⟩ := List.mem_map.mp empty
    obtain ⟨i, member⟩ := (grouped ss).occupied g hg
    rw [none] at member
    cases member
  ordered places member := by
    obtain ⟨g, -, rfl⟩ := List.mem_map.mp member
    exact g.sorted
  connected i inside j := by
    rw [← together_iff inside]
    simp only [List.mem_map, exists_exists_and_eq_and, Together]

/-! ### Processes -/

/-- The process consists of the statements at the places and drives exactly what they set. -/
def ConsistsOf (ss : List Stmt) (places : List Nat) (p : Process) : Prop :=
  ∃ body writes, p = .logic body writes ∧ body.map some = places.map (ss[·]?) ∧
    ∀ x, x ∈ writes ↔ ∃ s ∈ body, s.Sets x

theorem atPlaces_consistsOf {places : List Nat} (inside : ∀ i ∈ places, i < ss.length) :
    ConsistsOf ss places (atPlaces ss places) := by
  refine ⟨_, _, rfl, ?_, fun x => ?_⟩
  · induction places with
    | nil => rfl
    | cons i is ih =>
      have here := List.getElem?_eq_getElem (inside i (.head is))
      rw [List.filterMap_cons_some here, List.map_cons, List.map_cons, here,
        ih fun j hj => inside j (.tail i hj)]
  · rw [Stmt.mem_assigned]
    simp only [Stmt.mem_assigned_singleton]

theorem outputs_disjoint (ss : List Stmt) :
    (ofStmts ss).Pairwise fun p q => ∀ x ∈ p.outputs, x ∉ q.outputs :=
  List.pairwise_map.mpr ((grouped ss).separate.imp And.left)

/-- The processes of statements are the classes that a partition of the places into connected ones
gives: each consists of the statements of its class in their order and drives exactly what these
set. No two processes drive the same signal. -/
theorem ofStmts_partitions (ss : List Stmt) :
    ∃ parts, Partitions ss parts ∧ List.Forall₂ (ConsistsOf ss) parts (ofStmts ss) ∧
      (ofStmts ss).Pairwise fun p q => ∀ x ∈ p.outputs, x ∉ q.outputs := by
  refine ⟨_, partitions_places ss, ?_, outputs_disjoint ss⟩
  rw [ofStmts_eq, List.forall₂_map_right_iff, List.forall₂_same]
  intro places member
  refine atPlaces_consistsOf fun i hi => ?_
  exact mem_flatten_places.mp (List.mem_flatten.mpr ⟨places, member, hi⟩)

end Process

end Gateware
