import Gateware.Proofs.Ordered
import Mathlib.Data.List.Basic

/-!
# New keys for ordered collections

Sets and maps are walked in the order of their keys. When keys are exchanged for others that compare
the same way, every operation gives the same collection under the new keys, in the same order.
-/
namespace Gateware

namespace Ordered

variable {κ κ' : Type} [Ord κ] [Ord κ']

/-- New keys compare as the old ones did. -/
def Keeps (f : κ → κ') : Prop := ∀ a b, compare (f a) (f b) = compare a b

theorem Keeps.injective [Std.ReflOrd κ'] [Std.LawfulEqOrd κ] {f : κ → κ'} (h : Keeps f) :
    Function.Injective f := by
  intro a b same
  apply Std.LawfulEqOrd.eq_of_compare
  rw [← h a b, same]
  exact Std.ReflOrd.compare_self

variable {β β' : Type} (key : β → κ) (key' : β' → κ') {f : κ → κ'} (g : β → β')

theorem insertBy_map (keeps : Keeps f) (along : ∀ b, key' (g b) = f (key b)) (x : β) (xs : List β) :
    insertBy key' (g x) (xs.map g) = (insertBy key x xs).map g := by
  induction xs with
  | nil => rfl
  | cons y rest ih =>
    rw [List.map_cons, insertBy, insertBy, along, along, keeps]
    cases compare (key x) (key y) with
    | lt => rfl
    | eq => rfl
    | gt => exact congrArg (g y :: ·) ih

theorem findBy_map (keeps : Keeps f) (along : ∀ b, key' (g b) = f (key b)) (k : κ) (xs : List β) :
    findBy key' (f k) (xs.map g) = (findBy key k xs).map g := by
  induction xs with
  | nil => rfl
  | cons y rest ih =>
    rw [List.map_cons, findBy, findBy, along, keeps]
    split
    · rfl
    · exact ih

end Ordered

open Ordered (Keeps)

namespace OrdSet

variable {α β : Type} [Ord α] [Std.TransOrd α] [Std.LawfulEqOrd α] [Ord β] [Std.TransOrd β]
  [Std.LawfulEqOrd β] {f : α → β}

/-- The set of new members. -/
def image (f : α → β) (s : OrdSet α) : OrdSet β := ofList (s.toList.map f)

@[simp] theorem ofList_toList (s : OrdSet α) : ofList s.toList = s :=
  ext_mem fun _ => mem_ofList

omit [Std.LawfulEqOrd α] [Std.LawfulEqOrd β] in
theorem toList_ofList_map (keeps : Keeps f) (xs : List α) :
    (ofList (xs.map f)).toList = (ofList xs).toList.map f := by
  have step : ∀ (s : OrdSet α) (t : OrdSet β), t.toList = s.toList.map f →
      (t.insertAll (xs.map f)).toList = (s.insertAll xs).toList.map f := by
    induction xs with
    | nil => exact fun s t same => same
    | cons x xs ih =>
      intro s t same
      apply ih
      change Ordered.insertBy id (f x) t.toList = (Ordered.insertBy id x s.toList).map f
      rw [same]
      exact Ordered.insertBy_map id id f keeps (fun _ => rfl) x s.toList
  exact step ∅ ∅ rfl

omit [Std.LawfulEqOrd β] in
theorem ofList_map (keeps : Keeps f) (xs : List α) : ofList (xs.map f) = (ofList xs).image f := by
  apply ext_toList
  rw [image, toList_ofList_map keeps, toList_ofList_map keeps, ofList_toList]

omit [Std.LawfulEqOrd β] in
theorem toList_image (keeps : Keeps f) (s : OrdSet α) : (s.image f).toList = s.toList.map f := by
  rw [image, toList_ofList_map keeps, ofList_toList]

theorem mem_image (keeps : Keeps f) {s : OrdSet α} {a : α} : f a ∈ s.image f ↔ a ∈ s := by
  rw [← mem_toList, toList_image keeps, List.mem_map_of_injective keeps.injective, mem_toList]

theorem image_union (s t : OrdSet α) : (s ∪ t).image f = s.image f ∪ t.image f := by
  apply ext_mem
  intro b
  simp only [image, mem_ofList, List.mem_map, mem_toList, mem_union]
  constructor
  · rintro ⟨a, ha | ha, rfl⟩
    · exact .inl ⟨a, ha, rfl⟩
    · exact .inr ⟨a, ha, rfl⟩
  · rintro (⟨a, ha, rfl⟩ | ⟨a, ha, rfl⟩)
    · exact ⟨a, .inl ha, rfl⟩
    · exact ⟨a, .inr ha, rfl⟩

end OrdSet

namespace OrdMap

variable {κ κ' : Type} [Ord κ] [Ord κ'] [Std.TransOrd κ'] {α β : Type}

/-- The map under new keys with new values. -/
def rekey (f : κ → κ') (g : α → β) (m : OrdMap κ α) : OrdMap κ' β :=
  ofList (m.entries.map fun e => (f e.1, g e.2))

variable {f : κ → κ'} {g : α → β}

variable [Std.LawfulEqOrd κ']

@[simp] theorem ofList_entries (m : OrdMap κ' β) : ofList m.entries = m := by
  apply ext_get?
  intro k
  rw [show ofList m.entries = (∅ : OrdMap κ' β).override m from rfl, get?_override, get?_empty,
    Option.or_none]

theorem entries_ofList {entries : List (κ' × β)} (h : Ordered.Increasing Prod.fst entries) :
    (ofList entries).entries = entries :=
  congrArg OrdMap.entries (ofList_entries ⟨entries, h⟩)

/-- It is enough that new keys keep the order of the keys that are there. -/
theorem entries_rekey_of_lt {m : OrdMap κ α}
    (lt : ∀ a ∈ m.keys, ∀ b ∈ m.keys, compare a b = .lt → compare (f a) (f b) = .lt) :
    (m.rekey f g).entries = m.entries.map fun e => (f e.1, g e.2) := by
  apply entries_ofList
  refine List.pairwise_map.mpr (m.increasing.imp_of_mem fun {a b} ha hb h => ?_)
  exact lt a.1 (List.mem_map_of_mem ha) b.1 (List.mem_map_of_mem hb) h

section Keeping

variable (keeps : Keeps f)

include keeps

theorem entries_rekey (m : OrdMap κ α) :
    (m.rekey f g).entries = m.entries.map fun e => (f e.1, g e.2) :=
  entries_rekey_of_lt fun a _ b _ h => (keeps a b).trans h

theorem get?_rekey (m : OrdMap κ α) (k : κ) : (m.rekey f g).get? (f k) = (m.get? k).map g := by
  have found : Ordered.findBy Prod.fst (f k) (m.entries.map fun e => (f e.1, g e.2)) =
      (Ordered.findBy Prod.fst k m.entries).map fun e => (f e.1, g e.2) :=
    Ordered.findBy_map Prod.fst Prod.fst _ keeps (fun _ => rfl) k m.entries
  rw [get?, get?, entries_rekey keeps, found, Option.map_map, Option.map_map]
  rfl

theorem getD_rekey (m : OrdMap κ α) (k : κ) (fallback : α) :
    (m.rekey f g).getD (f k) (g fallback) = g (m.getD k fallback) := by
  rw [getD, getD, get?_rekey keeps, Option.getD_map]

theorem contains_rekey (m : OrdMap κ α) (k : κ) :
    (m.rekey f g).contains (f k) = m.contains k := by
  rw [contains, contains, get?_rekey keeps, Option.isSome_map]

theorem values_rekey (m : OrdMap κ α) : (m.rekey f g).values = m.values.map g := by
  rw [values, values, entries_rekey keeps, List.map_map, List.map_map]
  rfl

theorem filter_rekey {p : α → Bool} {p' : β → Bool} (along : ∀ a, p' (g a) = p a) (m : OrdMap κ α) :
    (m.rekey f g).filter p' = (m.filter p).rekey f g := by
  apply ext_entries
  change (m.rekey f g).entries.filter (fun e => p' e.2) = _
  rw [entries_rekey keeps, entries_rekey keeps, List.filter_map]
  simp only [Function.comp_def, along]
  rfl

variable [Std.TransOrd κ]

theorem insert_rekey (m : OrdMap κ α) (k : κ) (v : α) :
    (m.rekey f g).insert (f k) (g v) = (m.insert k v).rekey f g := by
  apply ext_entries
  rw [entries_rekey keeps]
  change Ordered.insertBy Prod.fst (f k, g v) (m.rekey f g).entries = _
  rw [entries_rekey keeps]
  exact Ordered.insertBy_map Prod.fst Prod.fst (fun e => (f e.1, g e.2)) keeps (fun _ => rfl) (k, v)
    m.entries

theorem insertNew_rekey (m : OrdMap κ α) (k : κ) (v : α) :
    (m.rekey f g).insertNew (f k) (g v) = (m.insertNew k v).rekey f g := by
  rw [insertNew, insertNew, contains_rekey keeps]
  split
  · rfl
  · exact insert_rekey keeps m k v

theorem alter_rekey {h : Option α → α} {h' : Option β → β} (along : ∀ o, h' (o.map g) = g (h o))
    (m : OrdMap κ α) (k : κ) : (m.rekey f g).alter (f k) h' = (m.alter k h).rekey f g := by
  rw [alter, alter, get?_rekey keeps, along, insert_rekey keeps]

theorem insertAll_rekey (m : OrdMap κ α) (entries : List (κ × α)) :
    (m.rekey f g).insertAll (entries.map fun e => (f e.1, g e.2)) =
      (m.insertAll entries).rekey f g := by
  induction entries generalizing m with
  | nil => rfl
  | cons e entries ih =>
    rw [List.map_cons, insertAll, List.foldl_cons, insert_rekey keeps]
    exact ih (m.insert e.1 e.2)

theorem ofList_rekey (entries : List (κ × α)) :
    ofList (entries.map fun e => (f e.1, g e.2)) = (ofList entries).rekey f g :=
  insertAll_rekey keeps ∅ entries

theorem unionWith_rekey {c : α → α → α} {c' : β → β → β} (along : ∀ a b, c' (g a) (g b) = g (c a b))
    (m n : OrdMap κ α) :
    (m.rekey f g).unionWith c' (n.rekey f g) = (m.unionWith c n).rekey f g := by
  rw [unionWith, unionWith, entries_rekey keeps]
  generalize n.entries = entries
  induction entries generalizing m with
  | nil => rfl
  | cons e entries ih =>
    have one : (m.rekey f g).alter (f e.1) (fun old => (old.map (c' · (g e.2))).getD (g e.2)) =
        (m.alter e.1 fun old => (old.map (c · e.2)).getD e.2).rekey f g := by
      apply alter_rekey keeps
      intro o
      cases o with
      | none => rfl
      | some a => exact along a e.2
    rw [List.map_cons, List.foldl_cons, List.foldl_cons, one, ih]

variable [Std.LawfulEqOrd κ]

theorem keys_rekey (m : OrdMap κ α) : (m.rekey f g).keys = m.keys.image f := by
  apply OrdSet.ext_toList
  rw [OrdSet.toList_image keeps]
  change (m.rekey f g).entries.map Prod.fst = (m.entries.map Prod.fst).map f
  rw [entries_rekey keeps, List.map_map, List.map_map]
  rfl

theorem ofKeys_image {h : κ → α} {h' : κ' → β} (along : ∀ k, h' (f k) = g (h k)) (s : OrdSet κ) :
    ofKeys (s.image f) h' = (ofKeys s h).rekey f g := by
  apply ext_entries
  change (s.image f).toList.map (fun k => (k, h' k)) = _
  rw [entries_rekey keeps, OrdSet.toList_image keeps, List.map_map]
  change _ = (s.toList.map fun k => (k, h k)).map _
  rw [List.map_map]
  simp only [Function.comp_def, along]

end Keeping

/-- New values alone. -/
theorem map_eq_rekey (g : α → β) (m : OrdMap κ' α) : m.map g = m.rekey id g := by
  apply ext_entries
  rw [entries_rekey (fun _ _ => rfl : Keeps (id : κ' → κ'))]
  rfl

end OrdMap

end Gateware
