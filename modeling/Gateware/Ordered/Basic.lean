/-!
# Strictly increasing lists

Lists whose elements have strictly increasing keys. They carry the finite maps and sets of the
library: a strictly increasing list is determined by its members, so equal collections are equal
lists, and iterating one needs no separate order.
-/
namespace Gateware.Ordered

variable {κ : Type} [Ord κ] {β : Type}

/-- Keys grow strictly from one element to every later one. -/
def Increasing (key : β → κ) (xs : List β) : Prop :=
  xs.Pairwise fun a b => compare (key a) (key b) = .lt

/-- Insert an element at its place, replacing the element with an equal key. -/
def insertBy (key : β → κ) (x : β) : List β → List β
  | [] => [x]
  | y :: rest =>
    match compare (key x) (key y) with
    | .lt => x :: y :: rest
    | .eq => x :: rest
    | .gt => y :: insertBy key x rest

/-- The element with key `k`, if there is one. -/
def findBy (key : β → κ) (k : κ) : List β → Option β
  | [] => none
  | y :: rest => if compare k (key y) = .eq then some y else findBy key k rest

theorem mem_insertBy {key : β → κ} {x a : β} {xs : List β} (h : a ∈ insertBy key x xs) :
    a = x ∨ a ∈ xs := by
  induction xs with
  | nil => simpa [insertBy] using h
  | cons y rest ih =>
    simp only [insertBy] at h
    split at h
    · simpa using h
    · rcases List.mem_cons.mp h with rfl | h
      · exact .inl rfl
      · exact .inr (List.mem_cons_of_mem _ h)
    · rcases List.mem_cons.mp h with rfl | h
      · exact .inr (by simp)
      · exact (ih h).imp id (List.mem_cons_of_mem _)

theorem Increasing.insertBy [Std.TransOrd κ] {key : β → κ} {xs : List β}
    (h : Increasing key xs) (x : β) : Increasing key (insertBy key x xs) := by
  induction xs with
  | nil => simp [Ordered.insertBy, Increasing]
  | cons y rest ih =>
    have head := (List.pairwise_cons.mp h).1
    have tail := (List.pairwise_cons.mp h).2
    simp only [Ordered.insertBy]
    split
    next lt =>
      refine List.pairwise_cons.mpr ⟨fun a member => ?_, h⟩
      rcases List.mem_cons.mp member with rfl | member
      · exact lt
      · exact Std.TransCmp.lt_trans lt (head a member)
    next eq =>
      exact List.pairwise_cons.mpr
        ⟨fun a member => Std.TransCmp.lt_of_eq_of_lt eq (head a member), tail⟩
    next gt =>
      refine List.pairwise_cons.mpr ⟨fun a member => ?_, ih tail⟩
      rcases mem_insertBy member with rfl | member
      · exact Std.OrientedCmp.lt_of_gt gt
      · exact head a member

theorem Increasing.filter {key : β → κ} {xs : List β} (h : Increasing key xs) (p : β → Bool) :
    Increasing key (xs.filter p) :=
  List.Pairwise.filter p h

end Gateware.Ordered
