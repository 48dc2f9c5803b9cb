import Gateware.Ordered.Set

/-!
# Ordered finite maps

A map is the list of its entries in strictly increasing key order. Two maps with the same lookups
have the same entries, so equality of maps is equality of what they hold.
-/
namespace Gateware

/-- A finite map as the list of its entries in strictly increasing key order. -/
structure OrdMap (κ : Type) [Ord κ] (α : Type) where
  entries : List (κ × α)
  increasing : Ordered.Increasing Prod.fst entries

namespace OrdMap

variable {κ : Type} [Ord κ] {α β : Type}

def empty : OrdMap κ α := ⟨[], List.Pairwise.nil⟩

instance : EmptyCollection (OrdMap κ α) := ⟨empty⟩

instance : Inhabited (OrdMap κ α) := ⟨empty⟩

@[ext] theorem ext_entries {m n : OrdMap κ α} (h : m.entries = n.entries) : m = n := by
  cases m; cases n; simp_all

instance [DecidableEq κ] [DecidableEq α] : DecidableEq (OrdMap κ α) := fun m n =>
  decidable_of_iff (m.entries = n.entries) ⟨ext_entries, congrArg entries⟩

def get? (m : OrdMap κ α) (k : κ) : Option α :=
  (Ordered.findBy Prod.fst k m.entries).map Prod.snd

def getD (m : OrdMap κ α) (k : κ) (fallback : α) : α := (m.get? k).getD fallback

def contains (m : OrdMap κ α) (k : κ) : Bool := (m.get? k).isSome

def isEmpty (m : OrdMap κ α) : Bool := m.entries.isEmpty

def values (m : OrdMap κ α) : List α := m.entries.map Prod.snd

/-- The keys, in order. -/
def keys (m : OrdMap κ α) : OrdSet κ :=
  ⟨m.entries.map Prod.fst, List.pairwise_map.mpr m.increasing⟩

/-- The map with the given keys and `f k` at `k`. -/
def ofKeys (s : OrdSet κ) (f : κ → α) : OrdMap κ α :=
  ⟨s.toList.map fun k => (k, f k), by
    simpa [Ordered.Increasing, List.pairwise_map] using s.increasing⟩

/-- Rebuild every value, knowing its key. -/
def mapWithKey (f : κ → α → β) (m : OrdMap κ α) : OrdMap κ β :=
  ⟨m.entries.map fun e => (e.1, f e.1 e.2), by
    simpa [Ordered.Increasing, List.pairwise_map] using m.increasing⟩

def map (f : α → β) (m : OrdMap κ α) : OrdMap κ β := m.mapWithKey fun _ => f

/-- Keep the entries whose value satisfies `p`. -/
def filter (p : α → Bool) (m : OrdMap κ α) : OrdMap κ α :=
  ⟨m.entries.filter fun e => p e.2, m.increasing.filter _⟩

variable [Std.TransOrd κ]

/-- Set the value at `k`, whatever was there. -/
def insert (m : OrdMap κ α) (k : κ) (v : α) : OrdMap κ α :=
  ⟨Ordered.insertBy Prod.fst (k, v) m.entries, m.increasing.insertBy _⟩

/-- Set the value at `k` unless there is one. -/
def insertNew (m : OrdMap κ α) (k : κ) (v : α) : OrdMap κ α :=
  if m.contains k then m else m.insert k v

/-- Replace the value at `k` by `f` of what is there. -/
def alter (m : OrdMap κ α) (k : κ) (f : Option α → α) : OrdMap κ α := m.insert k (f (m.get? k))

/-- Apply `f` to the value at `k`, if there is one. -/
def modify (m : OrdMap κ α) (k : κ) (f : α → α) : OrdMap κ α :=
  match m.get? k with
  | some v => m.insert k (f v)
  | none => m

/-- Set every entry of a list in turn; the last one of a key wins. -/
def insertAll (m : OrdMap κ α) (entries : List (κ × α)) : OrdMap κ α :=
  entries.foldl (fun m e => m.insert e.1 e.2) m

def ofList (entries : List (κ × α)) : OrdMap κ α := insertAll ∅ entries

/-- All entries of both; where both have one, `f` joins them. -/
def unionWith (f : α → α → α) (m n : OrdMap κ α) : OrdMap κ α :=
  n.entries.foldl (fun m e => m.alter e.1 fun old => (old.map (f · e.2)).getD e.2) m

/-- All entries of both; those of `n` win. -/
def override (m n : OrdMap κ α) : OrdMap κ α := m.insertAll n.entries

end OrdMap

end Gateware
