import Gateware.Ordered.Map
import Mathlib.Tactic.ByContra
import Mathlib.Tactic.Tauto

/-!
# Lookups in ordered maps and sets

A strictly increasing list is determined by its members, so maps are equal as soon as their lookups
agree and sets as soon as their members do. Every operation has one equation in those terms.
-/
namespace Gateware

namespace Ordered

variable {κ : Type} [Ord κ] [Std.LawfulEqOrd κ] {β : Type}

theorem Increasing.eq_of_key_eq {key : β → κ} {xs : List β} (h : Increasing key xs) {a b : β}
    (ha : a ∈ xs) (hb : b ∈ xs) (same : key a = key b) : a = b := by
  induction xs with
  | nil => cases ha
  | cons x xs ih =>
    have head := (List.pairwise_cons.mp h).1
    rcases List.mem_cons.mp ha with ha | ha <;> rcases List.mem_cons.mp hb with hb | hb
    · rw [ha, hb]
    · have lt := head b hb
      rw [← ha, same, Std.ReflOrd.compare_self] at lt
      cases lt
    · have lt := head a ha
      rw [← hb, same, Std.ReflOrd.compare_self] at lt
      cases lt
    · exact ih (List.pairwise_cons.mp h).2 ha hb

theorem Increasing.nodup {key : β → κ} {xs : List β} (h : Increasing key xs) : xs.Nodup := by
  refine List.Pairwise.imp (fun {a b} lt => ?_) h
  rintro rfl
  rw [Std.ReflOrd.compare_self] at lt
  cases lt

/-- Two increasing lists with the same members are one list. -/
theorem Increasing.ext [Std.TransOrd κ] {key : β → κ} {xs ys : List β} (hx : Increasing key xs)
    (hy : Increasing key ys) (same : ∀ a, a ∈ xs ↔ a ∈ ys) : xs = ys := by
  have perm := (List.perm_ext_iff_of_nodup hx.nodup hy.nodup).mpr same
  refine perm.eq_of_pairwise ?_ hx hy
  intro a b _ _ ab ba
  rw [Std.OrientedOrd.eq_swap, ba] at ab
  cases ab

omit [Std.LawfulEqOrd κ] in
/-- An element whose key is new comes in addition. -/
theorem insertBy_perm {key : β → κ} {x : β} {xs : List β} (new : findBy key (key x) xs = none) :
    (insertBy key x xs).Perm (x :: xs) := by
  induction xs with
  | nil => exact .refl _
  | cons y ys ih =>
    rw [findBy] at new
    split at new
    · cases new
    next other =>
      rw [insertBy]
      split
      · exact .refl _
      next same => exact absurd same other
      next => exact ((ih new).cons y).trans (.swap x y ys)

theorem findBy_insertBy [DecidableEq κ] (key : β → κ) (k : κ) (x : β) (xs : List β) :
    findBy key k (insertBy key x xs) = if k = key x then some x else findBy key k xs := by
  induction xs with
  | nil => simp [insertBy, findBy]
  | cons y ys ih =>
    simp only [insertBy]
    split
    next => simp [findBy]
    next eq =>
      have same : key x = key y := Std.LawfulEqOrd.eq_of_compare eq
      by_cases hk : k = key x <;> simp [findBy, hk, ← same]
    next gt =>
      have differ : key x ≠ key y := by
        intro same
        rw [same, Std.ReflOrd.compare_self] at gt
        cases gt
      by_cases hk : k = key y
      · subst hk
        simp [findBy, Std.ReflOrd.compare_self, Ne.symm differ]
      · simp [findBy, hk, ih]

theorem findBy_eq_some_iff {key : β → κ} {xs : List β} (h : Increasing key xs) {k : κ} {x : β} :
    findBy key k xs = some x ↔ x ∈ xs ∧ key x = k := by
  induction xs with
  | nil => simp [findBy]
  | cons y ys ih =>
    have head := (List.pairwise_cons.mp h).1
    by_cases hk : k = key y
    · subst hk
      simp only [findBy, Std.ReflOrd.compare_self, if_true, Option.some.injEq]
      constructor
      · rintro rfl
        exact ⟨by simp, rfl⟩
      · rintro ⟨member, same⟩
        exact (h.eq_of_key_eq member (by simp) same).symm
    · simp only [findBy, Std.LawfulEqOrd.compare_eq_iff_eq, hk, if_false,
        ih (List.pairwise_cons.mp h).2, List.mem_cons]
      constructor
      · exact fun ⟨member, same⟩ => ⟨.inr member, same⟩
      · rintro ⟨rfl | member, same⟩
        · exact absurd same.symm hk
        · exact ⟨member, same⟩

theorem mem_insertBy_id {α : Type} [Ord α] [Std.LawfulEqOrd α] {x a : α}
    {xs : List α} : a ∈ insertBy id x xs ↔ a = x ∨ a ∈ xs := by
  refine ⟨mem_insertBy, ?_⟩
  induction xs with
  | nil => simp [insertBy]
  | cons y ys ih =>
    simp only [insertBy, id]
    split
    next => simp
    next eq =>
      have same : x = y := Std.LawfulEqOrd.eq_of_compare eq
      simp [same]
    next =>
      rintro (rfl | member)
      · exact List.mem_cons_of_mem _ (ih (.inl rfl))
      · rcases List.mem_cons.mp member with rfl | member
        · simp
        · exact List.mem_cons_of_mem _ (ih (.inr member))

end Ordered

namespace OrdSet

variable {α : Type} [Ord α] [Std.TransOrd α] [Std.LawfulEqOrd α]

omit [Std.TransOrd α] [Std.LawfulEqOrd α] in
theorem mem_toList {s : OrdSet α} {a : α} : a ∈ s.toList ↔ a ∈ s := Iff.rfl

/-- Sets with the same members are equal. -/
theorem ext_mem {s t : OrdSet α} (h : ∀ a, a ∈ s ↔ a ∈ t) : s = t :=
  ext_toList (s.increasing.ext t.increasing h)

omit [Std.TransOrd α] [Std.LawfulEqOrd α] in
@[simp] theorem not_mem_empty (a : α) : a ∉ (∅ : OrdSet α) := List.not_mem_nil

@[simp] theorem mem_insert {s : OrdSet α} {a b : α} : b ∈ s.insert a ↔ b = a ∨ b ∈ s :=
  Ordered.mem_insertBy_id

@[simp] theorem mem_insertAll {s : OrdSet α} {xs : List α} {a : α} :
    a ∈ s.insertAll xs ↔ a ∈ s ∨ a ∈ xs := by
  induction xs generalizing s with
  | nil => simp [insertAll]
  | cons x xs ih =>
    change a ∈ (s.insert x).insertAll xs ↔ _
    rw [ih, mem_insert, List.mem_cons]
    tauto

@[simp] theorem mem_ofList {xs : List α} {a : α} : a ∈ ofList xs ↔ a ∈ xs := by
  simp [ofList]

@[simp] theorem mem_singleton {a b : α} : b ∈ singleton a ↔ b = a := by
  simp [singleton]

@[simp] theorem mem_union {s t : OrdSet α} {a : α} : a ∈ s ∪ t ↔ a ∈ s ∨ a ∈ t := by
  change a ∈ s.insertAll t.toList ↔ _
  rw [mem_insertAll, mem_toList]

theorem mem_foldl_union {β : Type} {f : β → OrdSet α} {xs : List β} {s : OrdSet α} {a : α} :
    a ∈ xs.foldl (fun s x => s ∪ f x) s ↔ a ∈ s ∨ ∃ x ∈ xs, a ∈ f x := by
  induction xs generalizing s with
  | nil => simp
  | cons x xs ih =>
    rw [List.foldl_cons, ih, mem_union]
    simp only [List.mem_cons, exists_eq_or_imp]
    tauto

omit [Std.TransOrd α] [Std.LawfulEqOrd α] in
theorem subset_iff [DecidableEq α] {s t : OrdSet α} : s.subset t = true ↔ ∀ a ∈ s, a ∈ t := by
  simp only [subset, List.all_eq_true, decide_eq_true_eq, mem_toList]

omit [Std.TransOrd α] [Std.LawfulEqOrd α] in
theorem disjoint_iff [DecidableEq α] {s t : OrdSet α} :
    s.disjoint t = true ↔ ∀ a ∈ s, a ∉ t := by
  simp only [disjoint, List.all_eq_true, decide_eq_true_eq, mem_toList]

end OrdSet

namespace OrdMap

variable {κ : Type} [Ord κ] [Std.LawfulEqOrd κ] {α β : Type}

theorem get?_eq_some_iff {m : OrdMap κ α} {k : κ} {v : α} :
    m.get? k = some v ↔ (k, v) ∈ m.entries := by
  simp only [get?, Option.map_eq_some_iff, Ordered.findBy_eq_some_iff m.increasing]
  constructor
  · rintro ⟨⟨j, w⟩, ⟨member, rfl⟩, rfl⟩
    exact member
  · exact fun member => ⟨(k, v), ⟨member, rfl⟩, rfl⟩

omit [Std.LawfulEqOrd κ] in
@[simp] theorem get?_empty (k : κ) : (∅ : OrdMap κ α).get? k = none := rfl

@[simp] theorem mem_keys {m : OrdMap κ α} {k : κ} : k ∈ m.keys ↔ (m.get? k).isSome := by
  rw [Option.isSome_iff_exists]
  simp only [get?_eq_some_iff]
  change k ∈ m.entries.map Prod.fst ↔ _
  simp

theorem get?_ofKeys [DecidableEq κ] (s : OrdSet κ) (f : κ → α) (k : κ) :
    (ofKeys s f).get? k = if k ∈ s then some (f k) else none := by
  by_cases h : k ∈ s
  · rw [if_pos h, get?_eq_some_iff]
    exact List.mem_map.mpr ⟨k, h, rfl⟩
  · rw [if_neg h]
    by_contra present
    obtain ⟨v, hv⟩ := Option.ne_none_iff_exists'.mp present
    obtain ⟨j, member, same⟩ := List.mem_map.mp (get?_eq_some_iff.mp hv)
    cases same
    exact h member

variable [Std.TransOrd κ]

/-- Maps with the same lookups are equal. -/
theorem ext_get? {m n : OrdMap κ α} (h : ∀ k, m.get? k = n.get? k) : m = n := by
  refine ext_entries (m.increasing.ext n.increasing fun ⟨k, v⟩ => ?_)
  rw [← get?_eq_some_iff, ← get?_eq_some_iff, h]

theorem get?_insert [DecidableEq κ] (m : OrdMap κ α) (k j : κ) (v : α) :
    (m.insert k v).get? j = if j = k then some v else m.get? j := by
  simp only [get?, insert, Ordered.findBy_insertBy]
  split <;> rfl

omit [Std.LawfulEqOrd κ] in
theorem values_insert_perm {m : OrdMap κ α} {k : κ} (new : m.get? k = none) (v : α) :
    (m.insert k v).values.Perm (v :: m.values) := by
  have absent : Ordered.findBy Prod.fst k m.entries = none := Option.map_eq_none_iff.mp new
  exact (Ordered.insertBy_perm (x := (k, v)) absent).map Prod.snd

@[simp] theorem get?_insert_self (m : OrdMap κ α) (k : κ) (v : α) :
    (m.insert k v).get? k = some v := by
  classical
  rw [get?_insert, if_pos rfl]

@[simp] theorem mem_keys_insert {m : OrdMap κ α} {k j : κ} {v : α} :
    j ∈ (m.insert k v).keys ↔ j = k ∨ j ∈ m.keys := by
  classical
  rw [mem_keys, mem_keys, get?_insert]
  split <;> simp_all

@[simp] theorem keys_ofKeys (s : OrdSet κ) (f : κ → α) : (ofKeys s f).keys = s := by
  classical
  refine OrdSet.ext_mem fun k => ?_
  rw [mem_keys, get?_ofKeys]
  split <;> simp_all

section Foldl

variable [DecidableEq κ] {β : Type} {key : β → κ} {val : β → α} {k : κ}

theorem get?_foldl_insert_of_ne {xs : List β} (other : ∀ x ∈ xs, key x ≠ k) (m : OrdMap κ α) :
    (xs.foldl (fun m x => m.insert (key x) (val x)) m).get? k = m.get? k := by
  induction xs generalizing m with
  | nil => rfl
  | cons x xs ih =>
    obtain ⟨here, rest⟩ := List.forall_mem_cons.mp other
    rw [List.foldl_cons, ih rest, get?_insert, if_neg (Ne.symm here)]

/-- Where all that is set at a key is one value, this is what is found. -/
theorem get?_foldl_insert_of_eq {xs : List β} {v : α} (same : ∀ x ∈ xs, key x = k → val x = v)
    {m : OrdMap κ α} (found : (∃ x ∈ xs, key x = k) ∨ m.get? k = some v) :
    (xs.foldl (fun m x => m.insert (key x) (val x)) m).get? k = some v := by
  induction xs generalizing m with
  | nil => simpa using found
  | cons x xs ih =>
    obtain ⟨here, rest⟩ := List.forall_mem_cons.mp same
    rw [List.foldl_cons]
    apply ih rest
    rw [get?_insert]
    by_cases hx : key x = k
    · exact .inr (by rw [if_pos hx.symm, here hx])
    · simpa [hx, Ne.symm hx] using found

end Foldl

/-- A key that is there stays there. -/
theorem isSome_insertAll {m : OrdMap κ α} {k : κ} (there : (m.get? k).isSome = true)
    (entries : List (κ × α)) : ((m.insertAll entries).get? k).isSome = true := by
  classical
  rw [insertAll]
  induction entries generalizing m with
  | nil => exact there
  | cons e entries ih =>
    refine ih ?_
    rw [get?_insert]
    split
    · rfl
    · exact there

/-- Overriding by a map looks there first. -/
theorem get?_override (m n : OrdMap κ α) (k : κ) :
    (m.override n).get? k = (n.get? k).or (m.get? k) := by
  classical
  have unique := n.increasing
  have found : ∀ v, n.get? k = some v ↔ (k, v) ∈ n.entries := fun v => get?_eq_some_iff
  rw [override, insertAll]
  generalize hn : n.get? k = target at found ⊢
  generalize n.entries = entries at unique found
  clear hn
  induction entries generalizing m target with
  | nil =>
    cases target with
    | none => rfl
    | some v => simpa using found v
  | cons e entries ih =>
    have later := (List.pairwise_cons.mp unique).1
    have tail := (List.pairwise_cons.mp unique).2
    rw [List.foldl_cons]
    by_cases hk : k = e.1
    · -- The head is the only entry of its key, so the tail finds nothing.
      have absent : ∀ v, (k, v) ∉ entries := by
        intro v member
        have lt := later (k, v) member
        rw [hk, Std.ReflOrd.compare_self] at lt
        cases lt
      have here : target = some e.2 := (found e.2).mpr (by simp [hk])
      rw [ih (m.insert e.1 e.2) none tail (fun v => by simp [absent v])]
      rw [here, ← hk, get?_insert_self]
      rfl
    · rw [ih (m.insert e.1 e.2) target tail, get?_insert, if_neg hk]
      intro v
      rw [found v, List.mem_cons]
      constructor
      · rintro (same | member)
        · exact absurd (congrArg Prod.fst same) hk
        · exact member
      · exact .inr

/-- Where maps agree with one function, overriding by all of them finds what any of them holds. -/
theorem get?_foldl_override {β : Type} {f : β → OrdMap κ α} {F : κ → Option α} {xs : List β}
    {m : OrdMap κ α} (start : ∀ k v, m.get? k = some v → F k = some v)
    (agree : ∀ x ∈ xs, ∀ k v, (f x).get? k = some v → F k = some v) (k : κ) (v : α) :
    (xs.foldl (fun m x => m.override (f x)) m).get? k = some v ↔
      m.get? k = some v ∨ ∃ x ∈ xs, (f x).get? k = some v := by
  induction xs generalizing m with
  | nil => simp
  | cons x xs ih =>
    have found : ∀ k v, (m.override (f x)).get? k = some v ↔
        m.get? k = some v ∨ (f x).get? k = some v := by
      intro k v
      rw [get?_override]
      cases hx : (f x).get? k with
      | none => simp
      | some w =>
        have same := agree x (by simp) k w hx
        simp only [Option.some_or, Option.some.injEq]
        constructor
        · exact .inr
        · rintro (old | new)
          · have other := start k v old
            rw [same] at other
            exact Option.some.inj other
          · exact new
    rw [List.foldl_cons, ih _ fun y hy => agree y (List.mem_cons_of_mem _ hy), found]
    · simp only [List.mem_cons, exists_eq_or_imp, or_assoc]
    · intro k v h
      exact ((found k v).mp h).elim (start k v) (agree x (by simp) k v)

omit [Std.TransOrd κ] in
theorem get?_map (f : α → β) (m : OrdMap κ α) (k : κ) : (m.map f).get? k = (m.get? k).map f := by
  refine Option.ext fun v => ?_
  rw [get?_eq_some_iff, Option.map_eq_some_iff]
  simp only [get?_eq_some_iff, map, mapWithKey, List.mem_map, Prod.mk.injEq]
  constructor
  · rintro ⟨⟨j, w⟩, member, rfl, rfl⟩
    exact ⟨w, member, rfl⟩
  · rintro ⟨w, member, rfl⟩
    exact ⟨(k, w), member, rfl, rfl⟩

omit [Std.TransOrd κ] in
theorem get?_filter_eq_some_iff {p : α → Bool} {m : OrdMap κ α} {k : κ} {v : α} :
    (m.filter p).get? k = some v ↔ m.get? k = some v ∧ p v = true := by
  simp only [get?_eq_some_iff, filter, List.mem_filter]

/-- Altering one entry after the other, each key once, alters every key by its own entry. -/
theorem get?_foldl_alter [DecidableEq κ] {g : κ × β → Option α → α} {entries : List (κ × β)}
    (unique : Ordered.Increasing Prod.fst entries) (m : OrdMap κ α) (k : κ) :
    (entries.foldl (fun m e => m.alter e.1 (g e)) m).get? k =
      (Ordered.findBy Prod.fst k entries).elim (m.get? k) fun e => some (g e (m.get? k)) := by
  induction entries generalizing m with
  | nil => rfl
  | cons e entries ih =>
    obtain ⟨later, tail⟩ := List.pairwise_cons.mp unique
    rw [List.foldl_cons, ih tail, alter, get?_insert]
    simp only [Ordered.findBy, Std.LawfulEqOrd.compare_eq_iff_eq]
    by_cases here : k = e.1
    · -- No later entry has the key of the head.
      have absent : Ordered.findBy Prod.fst k entries = none := by
        by_contra present
        obtain ⟨d, found⟩ := Option.ne_none_iff_exists'.mp present
        obtain ⟨member, same⟩ := (Ordered.findBy_eq_some_iff tail).mp found
        have lt := later d member
        rw [same, here, Std.ReflOrd.compare_self] at lt
        cases lt
      rw [absent, if_pos here, if_pos here, here]
      rfl
    · rw [if_neg here, if_neg here]

/-- A union holds what either map holds, joined where both do. -/
theorem get?_unionWith (f : α → α → α) (m n : OrdMap κ α) (k : κ) :
    (m.unionWith f n).get? k =
      (n.get? k).elim (m.get? k) fun b => some (((m.get? k).map (f · b)).getD b) := by
  classical
  have altered := get?_foldl_alter (g := fun e old => (old.map (f · e.2)).getD e.2) n.increasing m k
  rw [unionWith, altered, get?.eq_def n k]
  cases Ordered.findBy Prod.fst k n.entries <;> rfl

end OrdMap

end Gateware
