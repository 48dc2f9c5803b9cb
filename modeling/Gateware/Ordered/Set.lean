import Gateware.Ordered.Basic

/-!
# Ordered finite sets

A set is the strictly increasing list of its members, which is also the order in which it is
walked and printed.
-/
namespace Gateware

/-- A finite set as the strictly increasing list of its members. -/
structure OrdSet (α : Type) [Ord α] where
  toList : List α
  increasing : Ordered.Increasing id toList

namespace OrdSet

variable {α : Type} [Ord α]

def empty : OrdSet α := ⟨[], List.Pairwise.nil⟩

instance : EmptyCollection (OrdSet α) := ⟨empty⟩

instance : Inhabited (OrdSet α) := ⟨empty⟩

instance : Membership α (OrdSet α) := ⟨fun s a => a ∈ s.toList⟩

instance [DecidableEq α] (a : α) (s : OrdSet α) : Decidable (a ∈ s) :=
  inferInstanceAs (Decidable (a ∈ s.toList))

@[ext] theorem ext_toList {s t : OrdSet α} (h : s.toList = t.toList) : s = t := by
  cases s; cases t; simp_all

instance [DecidableEq α] : DecidableEq (OrdSet α) := fun s t =>
  decidable_of_iff (s.toList = t.toList) ⟨ext_toList, congrArg toList⟩

variable [Std.TransOrd α]

def insert (s : OrdSet α) (a : α) : OrdSet α :=
  ⟨Ordered.insertBy id a s.toList, s.increasing.insertBy a⟩

/-- Add every element of a list. -/
def insertAll (s : OrdSet α) (xs : List α) : OrdSet α := xs.foldl insert s

def ofList (xs : List α) : OrdSet α := insertAll ∅ xs

def singleton (a : α) : OrdSet α := insert ∅ a

def union (s t : OrdSet α) : OrdSet α := s.insertAll t.toList

instance : Union (OrdSet α) := ⟨union⟩

/-- The union of the sets that `f` gives along a list. -/
def unionOver {β : Type} (xs : List β) (f : β → OrdSet α) : OrdSet α :=
  xs.foldl (fun s x => s ∪ f x) ∅

variable [DecidableEq α]

omit [Std.TransOrd α] in
/-- Every member of `s` is a member of `t`. -/
def subset (s t : OrdSet α) : Bool := s.toList.all (· ∈ t)

omit [Std.TransOrd α] in
/-- No member of `s` is a member of `t`. -/
def disjoint (s t : OrdSet α) : Bool := s.toList.all (· ∉ t)

end OrdSet

end Gateware
