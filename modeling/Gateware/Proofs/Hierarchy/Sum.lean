import Gateware.Netlist.Domains
import Gateware.Proofs.Ordered

/-!
# Sums of netlists

Netlists with their sum form a monoid, and each part of a sum is read off the summands in order:
statements and domains follow each other, and of cells with one identity the first is kept.

## Main results

`append_assoc`, `sum_append`: sums can be taken in any grouping.

`append_forms_monoid`: the laws together, for all brackets that can be put around a sum.

`getD_sync_sum`, `contains_sync_sum`, `get?_cells_sum`: what a sum holds.

`checkDomains_ok_iff`: the check for repeated domains accepts exactly the netlists without.
-/
namespace Gateware

/-- A union joins what both maps hold. -/
theorem OrdMap.get?_unionWith_eq_merge {κ α : Type} [Ord κ] [Std.TransOrd κ] [Std.LawfulEqOrd κ]
    (f : α → α → α) (m n : OrdMap κ α) (k : κ) :
    (m.unionWith f n).get? k = (m.get? k).merge f (n.get? k) := by
  rw [get?_unionWith]
  cases m.get? k <;> cases n.get? k <;> rfl

namespace Netlist

/-! ### Two netlists -/

section Append

variable (a b c : Netlist)

@[simp] theorem comb_append : (a ++ b).comb = a.comb ++ b.comb := rfl

@[simp] theorem domains_append : (a ++ b).domains = a.domains ++ b.domains := rfl

theorem get?_sync_append (d : String) :
    (a ++ b).sync.get? d = (a.sync.get? d).merge (· ++ ·) (b.sync.get? d) :=
  OrdMap.get?_unionWith_eq_merge ..

theorem getD_sync_append (d : String) :
    (a ++ b).sync.getD d [] = a.sync.getD d [] ++ b.sync.getD d [] := by
  simp only [OrdMap.getD, get?_sync_append]
  cases a.sync.get? d with
  | none => cases b.sync.get? d <;> rfl
  | some ss =>
    cases b.sync.get? d with
    | none => exact (List.append_nil ss).symm
    | some ts => rfl

theorem contains_sync_append (d : String) :
    (a ++ b).sync.contains d = (a.sync.contains d || b.sync.contains d) := by
  simp only [OrdMap.contains, get?_sync_append]
  cases a.sync.get? d <;> cases b.sync.get? d <;> rfl

theorem get?_cells_append (i : CellId) :
    (a ++ b).cells.get? i = (a.cells.get? i).or (b.cells.get? i) := by
  refine (OrdMap.get?_unionWith_eq_merge ..).trans ?_
  cases a.cells.get? i <;> cases b.cells.get? i <;> rfl

variable {a b c}

/-- Netlists that hold the same are equal. -/
theorem ext_get? (comb : a.comb = b.comb) (sync : ∀ d, a.sync.get? d = b.sync.get? d)
    (cells : ∀ i, a.cells.get? i = b.cells.get? i) (domains : a.domains = b.domains) : a = b := by
  obtain ⟨_, _, _, _⟩ := a
  obtain ⟨_, _, _, _⟩ := b
  rw [mk.injEq]
  exact ⟨comb, OrdMap.ext_get? sync, OrdMap.ext_get? cells, domains⟩

variable (a b c)

theorem append_assoc : a ++ b ++ c = a ++ (b ++ c) := by
  apply ext_get?
  · exact List.append_assoc ..
  · intro d
    simp only [get?_sync_append]
    cases a.sync.get? d <;> cases b.sync.get? d <;> cases c.sync.get? d <;> simp [Option.merge]
  · intro i
    simp only [get?_cells_append, Option.or_assoc]
  · exact List.append_assoc ..

@[simp] theorem empty_append : {} ++ a = a := by
  apply ext_get?
  · exact List.nil_append _
  · intro d
    rw [get?_sync_append]
    cases a.sync.get? d <;> rfl
  · intro i
    rw [get?_cells_append]
    rfl
  · exact List.nil_append _

@[simp] theorem append_empty : a ++ {} = a := by
  apply ext_get?
  · exact List.append_nil _
  · intro d
    rw [get?_sync_append]
    cases a.sync.get? d <;> rfl
  · intro i
    rw [get?_cells_append]
    exact Option.or_none ..
  · exact List.append_nil _

end Append

/-! ### Any number of netlists -/

/-- Summing on from a netlist adds the sum of the others to it. -/
theorem foldl_append (n : Netlist) (ns : List Netlist) : ns.foldl (· ++ ·) n = n ++ sum ns := by
  induction ns generalizing n with
  | nil => exact (append_empty n).symm
  | cons first ns ih =>
    have rest : sum (first :: ns) = first ++ sum ns := by
      rw [sum, List.foldl_cons, ih, empty_append]
    rw [List.foldl_cons, ih, rest, append_assoc]

@[simp] theorem sum_cons (n : Netlist) (ns : List Netlist) : sum (n :: ns) = n ++ sum ns := by
  rw [sum, List.foldl_cons, foldl_append, empty_append]

theorem sum_append (ms ns : List Netlist) : sum (ms ++ ns) = sum ms ++ sum ns := by
  induction ms with
  | nil => exact (empty_append _).symm
  | cons m ms ih => rw [List.cons_append, sum_cons, ih, sum_cons, append_assoc]

theorem sum_flatMap {α : Type} (f : α → List Netlist) (xs : List α) :
    sum (xs.flatMap f) = sum (xs.map fun x => sum (f x)) := by
  induction xs with
  | nil => rfl
  | cons x xs ih => rw [List.flatMap_cons, sum_append, ih, List.map_cons, sum_cons]

section Sum

variable (ns : List Netlist)

theorem comb_sum : (sum ns).comb = ns.flatMap (·.comb) := by
  induction ns with
  | nil => rfl
  | cons n ns ih => rw [sum_cons, comb_append, ih, List.flatMap_cons]

theorem domains_sum : (sum ns).domains = ns.flatMap (·.domains) := by
  induction ns with
  | nil => rfl
  | cons n ns ih => rw [sum_cons, domains_append, ih, List.flatMap_cons]

theorem getD_sync_sum (d : String) :
    (sum ns).sync.getD d [] = ns.flatMap (·.sync.getD d []) := by
  induction ns with
  | nil => rfl
  | cons n ns ih => rw [sum_cons, getD_sync_append, ih, List.flatMap_cons]

theorem contains_sync_sum (d : String) :
    (sum ns).sync.contains d = ns.any (·.sync.contains d) := by
  induction ns with
  | nil => rfl
  | cons n ns ih => rw [sum_cons, contains_sync_append, ih, List.any_cons]

theorem get?_cells_sum (i : CellId) :
    (sum ns).cells.get? i = ns.findSome? (·.cells.get? i) := by
  induction ns with
  | nil => rfl
  | cons n ns ih =>
    rw [sum_cons, get?_cells_append, ih, List.findSome?_cons]
    cases n.cells.get? i <;> rfl

end Sum

/-! ### Brackets -/

/-- A sum with its brackets. -/
inductive Bracketed
  | empty
  | one (n : Netlist)
  | plus (left right : Bracketed)

namespace Bracketed

/-- The netlists in the sum, from left to right. -/
def summands : Bracketed → List Netlist
  | empty => []
  | one n => [n]
  | plus left right => left.summands ++ right.summands

/-- The sum, taken as the brackets say. -/
def total : Bracketed → Netlist
  | empty => {}
  | one n => n
  | plus left right => left.total ++ right.total

theorem total_eq_sum (b : Bracketed) : b.total = sum b.summands := by
  induction b with
  | empty => rfl
  | one n => exact (empty_append n).symm
  | plus left right first second => rw [total, summands, sum_append, first, second]

end Bracketed

/-- Netlists form a monoid. A sum joins the statements and domains of both, domain by domain where
they are clocked, and of cells with one identity it keeps the first. Sums are associative, the empty
netlist changes nothing on either side, and so every way to put brackets around netlists gives their
sum from left to right. -/
theorem append_forms_monoid :
    (∀ a b : Netlist, (a ++ b).comb = a.comb ++ b.comb ∧
      (∀ d, (a ++ b).sync.get? d = (a.sync.get? d).merge (· ++ ·) (b.sync.get? d)) ∧
      (∀ i, (a ++ b).cells.get? i = (a.cells.get? i).or (b.cells.get? i)) ∧
      (a ++ b).domains = a.domains ++ b.domains) ∧
    (∀ a b c : Netlist, a ++ b ++ c = a ++ (b ++ c)) ∧
    (∀ a : Netlist, {} ++ a = a ∧ a ++ {} = a) ∧
    ∀ b : Bracketed, b.total = sum b.summands :=
  ⟨fun a b => ⟨comb_append a b, get?_sync_append a b, get?_cells_append a b, domains_append a b⟩,
    append_assoc, fun a => ⟨empty_append a, append_empty a⟩, Bracketed.total_eq_sum⟩

/-! ### Domains declared once -/

theorem firstRepeated_eq_none_iff {seen names : List String} :
    firstRepeated seen names = none ↔ names.Nodup ∧ ∀ d ∈ names, d ∉ seen := by
  induction names generalizing seen with
  | nil => simp [firstRepeated]
  | cons d names ih =>
    rw [firstRepeated]
    by_cases old : d ∈ seen
    · simp [old]
    · rw [if_neg old, ih]
      simp only [List.nodup_cons, List.mem_cons, not_or, forall_eq_or_imp]
      constructor
      · rintro ⟨nodup, apart⟩
        exact ⟨⟨fun again => (apart d again).1 rfl, nodup⟩, old, fun e he => (apart e he).2⟩
      · rintro ⟨⟨once, nodup⟩, -, apart⟩
        exact ⟨nodup, fun e he => ⟨fun same => once (same ▸ he), apart e he⟩⟩

theorem checkDomains_ok_iff {n : Netlist} :
    n.checkDomains = .ok () ↔ (n.domains.map (·.name)).Nodup := by
  rw [checkDomains]
  constructor
  · intro checked
    split at checked
    next => cases checked
    next none => exact (firstRepeated_eq_none_iff.mp none).1
  · intro nodup
    rw [firstRepeated_eq_none_iff.mpr ⟨nodup, fun d _ => List.not_mem_nil⟩]

end Netlist

end Gateware
