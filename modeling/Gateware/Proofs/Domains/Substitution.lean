import Gateware.Proofs.Domains.Relabeling

/-!
# Renaming domains all at once

The rename decorator takes a map from names to names. It goes through stand-ins, one domain after
the other, first from the old names to the stand-ins and then on to the new ones.

## Main results

`rename_substitutes`: no two entries of the map get into each other's way. Every name that the map
has an entry for becomes what the entry says, once, and every other name stays, whether the map
swaps names, forms chains or cycles, keeps names or joins several of them.

## Proof strategy

A netlist renamed in turn is renamed by the composition (`renamed_foldl`), so the question is what
becomes of one name. In a round, a name is replaced at most once, since what it is replaced by is
not renamed in that round (`inTurn_of_mem`): stand-ins start with a character that no other name
starts with. The composition agrees with the map on the names in the netlist, and nothing else
matters (`Renamed.congr`).
-/
namespace Gateware

/-! ### Only the names at hand matter -/

variable {f g : String → String}

theorem Expr.renameDomains_congr {e : Expr} (same : ∀ d ∈ e.domains, g d = f d) :
    e.renameDomains g = e.renameDomains f := by
  refine e.bindRefs_congr fun r hr => ?_
  have here : g r.domain = f r.domain := same _ (List.mem_map_of_mem hr)
  cases r with
  | clock d => exact congrArg (fun d => Expr.ref (.clock d)) here
  | reset d orZero => exact congrArg (fun d => Expr.ref (.reset d orZero)) here

theorem Stmt.renameDomains_congr {ss : List Stmt}
    (same : ∀ e ∈ exprsOf ss, ∀ d ∈ e.domains, g d = f d) :
    renameDomains g ss = renameDomains f ss := by
  have along : mapExprsOf (Expr.renameDomains g) (mapExprsOf id ss) = renameDomains f ss :=
    mapExprsOf_trans ss fun e he => Expr.renameDomains_congr (same e he)
  have fixed : mapExprsOf id ss = ss := mapExprsOf_of_fixed ss fun _ _ => rfl
  rwa [fixed] at along

theorem Cell.renameDomains_congr {c : Cell} (same : ∀ d ∈ c.occurring, g d = f d) :
    c.renameDomains g = c.renameDomains f := by
  obtain ⟨fields, values⟩ := List.forall_mem_append.mp same
  have value : ∀ p ∈ c.ports, p.value.renameDomains g = p.value.renameDomains f := fun p hp =>
    Expr.renameDomains_congr fun d hd => values d (List.mem_flatMap.mpr ⟨p, hp, hd⟩)
  obtain ⟨id, kind⟩ := c
  cases kind with
  | inst i =>
    simp only [renameDomains, Kind.moveHomes, Kind.mapExprs]
    congr 3
    refine List.map_congr_left fun item hi => ?_
    cases item with
    | connect direction port e =>
      exact congrArg (Instance.Item.connect direction port)
        (value ⟨port, e, direction⟩ (List.mem_filterMap.mpr ⟨_, hi, rfl⟩))
    | param => rfl
  | memory m =>
    have ports : (m.ports.map fun p => { p with domain := g p.domain }) =
        m.ports.map fun p => { p with domain := f p.domain } := by
      refine List.map_congr_left fun p hp => ?_
      rw [fields p.domain (List.mem_map_of_mem hp)]
    simp only [renameDomains, Kind.moveHomes, Kind.mapExprs, Memory.moveHomes, ports]
  | tristate t =>
    have o := value ⟨"o", t.o, .input⟩ (by simp [ports, Kind.ports])
    have oe := value ⟨"oe", t.oe, .input⟩ (by simp [ports, Kind.ports])
    simp only [renameDomains, Kind.moveHomes, Kind.mapExprs, o, oe]
  | multiReg m =>
    have input := value ⟨"i", m.input, .input⟩ List.mem_cons_self
    have home := fields m.odomain List.mem_cons_self
    simp only [renameDomains, Kind.moveHomes, Kind.mapExprs, input, home]
  | resetSync r =>
    have source := value ⟨"async_reset", r.asyncReset, .input⟩ List.mem_cons_self
    have home := fields r.domain List.mem_cons_self
    simp only [renameDomains, Kind.moveHomes, Kind.mapExprs, source, home]
  | diffOutput d =>
    have input := value ⟨"i", d.input, .input⟩ List.mem_cons_self
    simp only [renameDomains, Kind.moveHomes, Kind.mapExprs, input]
  | diffInput | directive => rfl

namespace Netlist

/-- Renamings that agree on the names in a netlist rename it alike. -/
theorem Renamed.congr {n n' : Netlist} (renamed : n.Renamed g n')
    (same : ∀ d ∈ n.occurring, g d = f d) : n.Renamed f n' := by
  simp only [Netlist.occurring, List.forall_mem_append] at same
  obtain ⟨⟨⟨declared, keys⟩, references⟩, cells⟩ := same
  have key : ∀ e, n.sync.contains e = true → g e = f e := fun e he =>
    keys e (OrdMap.mem_keys.mpr he)
  have goes : ∀ e d, n.sync.contains e = true ∧ g e = d ↔ n.sync.contains e = true ∧ f e = d :=
    fun e d => and_congr_right fun he => by rw [key e he]
  have value : ∀ ss, (∀ s ∈ ss, s ∈ n.stmts) →
      Stmt.renameDomains g ss = Stmt.renameDomains f ss := by
    intro ss listed
    refine Stmt.renameDomains_congr fun e he d hd => references d (List.mem_flatMap.mpr ⟨e, ?_, hd⟩)
    rw [Stmt.exprsOf_eq, List.mem_flatMap] at he ⊢
    obtain ⟨s, hs, he⟩ := he
    exact ⟨s, listed s hs, he⟩
  refine ⟨?_, fun d => ?_, fun d => ?_, ?_, ?_⟩
  · rw [renamed.comb, value n.comb fun s hs => Netlist.mem_stmts.mpr (.inl hs)]
  · rw [renamed.contains]
    exact exists_congr fun e => goes e d
  · obtain ⟨es, once, members, gathered⟩ := renamed.sync d
    refine ⟨es, once, fun e => (members e).trans (goes e d), gathered.trans ?_⟩
    refine List.flatMap_congr fun e _ => value _ fun s hs => ?_
    exact Netlist.mem_stmts.mpr (.inr ⟨e, mem_getD_sync.mp hs⟩)
  · refine renamed.cells.trans (OrdMap.ext_entries (List.map_congr_left fun c hc => ?_))
    refine congrArg (Prod.mk c.1) (Cell.renameDomains_congr fun d hd => ?_)
    exact cells d (List.mem_flatMap.mpr ⟨c.2, List.mem_map_of_mem hc, hd⟩)
  · refine renamed.domains.trans (List.map_congr_left fun d hd => ?_)
    rw [declared d.name (List.mem_map_of_mem hd)]

end Netlist

/-! ### One name after the other -/

namespace Decorator

open Netlist (swapName)

section InTurn

variable {α : Type} (old new : α → String)

/-- What becomes of a name when the renamings of a list are done in turn. -/
def inTurn (xs : List α) (d : String) : String :=
  xs.foldl (fun d x => swapName (old x) (new x) d) d

theorem renamed_foldl (xs : List α) (n : Netlist) :
    n.Renamed (inTurn old new xs) (xs.foldl (fun n x => n.renameDomain (old x) (new x)) n) := by
  induction xs generalizing n with
  | nil => exact n.renamed_id
  | cons x xs ih => exact (n.renamed_renameDomains _).trans (ih _)

variable {old new} {xs : List α} {d : String}

theorem inTurn_of_ne (other : ∀ x ∈ xs, old x ≠ d) : inTurn old new xs d = d := by
  induction xs with
  | nil => rfl
  | cons x xs ih =>
    obtain ⟨here, rest⟩ := List.forall_mem_cons.mp other
    rw [inTurn, List.foldl_cons, swapName, if_neg (Ne.symm here)]
    exact ih rest

/-- A name is replaced once if what it is replaced by is not renamed. -/
theorem inTurn_of_mem {v : String} (found : ∃ x ∈ xs, old x = d)
    (one : ∀ x ∈ xs, old x = d → new x = v) (settled : ∀ x ∈ xs, old x ≠ v) :
    inTurn old new xs d = v := by
  induction xs with
  | nil =>
    obtain ⟨x, hx, -⟩ := found
    cases hx
  | cons x xs ih =>
    obtain ⟨here, rest⟩ := List.forall_mem_cons.mp one
    obtain ⟨-, later⟩ := List.forall_mem_cons.mp settled
    rw [inTurn, List.foldl_cons, swapName]
    by_cases same : d = old x
    · rw [if_pos same, here same.symm]
      exact inTurn_of_ne later
    · rw [if_neg same]
      refine ih ?_ rest later
      obtain ⟨y, hy, goes⟩ := found
      rcases List.mem_cons.mp hy with rfl | hy
      · exact absurd goes.symm same
      · exact ⟨y, hy, goes⟩

end InTurn

/-- The name does not start with the character that stand-ins start with. -/
def Ordinary (d : String) : Prop := d.toList.head? ≠ some '\x00'

instance (d : String) : Decidable (Ordinary d) := inferInstanceAs (Decidable (_ ≠ _))

theorem toList_standIn (i : Nat) :
    (standIn i).toList = '\x00' :: ("rename".toList ++ (toString i).toList) := by
  rw [standIn, String.toList_append]
  rfl

theorem Ordinary.ne_standIn {d : String} (ordinary : Ordinary d) (i : Nat) : standIn i ≠ d := by
  rintro rfl
  exact ordinary (by rw [toList_standIn]; rfl)

theorem standIn_injective : Function.Injective standIn := by
  intro i j same
  have letters := congrArg String.toList same
  rw [toList_standIn, toList_standIn, List.cons_inj_right, List.append_cancel_left_eq] at letters
  -- digits can be read back
  have numbers := congrArg (Nat.ofDigitChars 10 · 0) letters
  simpa [Nat.toString_eq_ofList_toDigits] using numbers

/-- The entries that rename anything, each with the number of its stand-in. -/
def moves (names : OrdMap String String) : List ((String × String) × Nat) :=
  names.entries.zipIdx.filter fun x => x.1.1 ≠ x.1.2

/-- What becomes of a name by way of the stand-ins. -/
def byStandIns (names : OrdMap String String) (d : String) : String :=
  inTurn (fun x => standIn x.2) (fun x => x.1.2) (moves names)
    (inTurn (fun x => x.1.1) (fun x => standIn x.2) (moves names) d)

theorem renameAll_eq (names : OrdMap String String) (n : Netlist) : renameAll names n =
    (moves names).foldl (fun n x => n.renameDomain (standIn x.2) x.1.2)
      ((moves names).foldl (fun n x => n.renameDomain x.1.1 (standIn x.2)) n) :=
  rfl

theorem renamed_renameAll (names : OrdMap String String) (n : Netlist) :
    n.Renamed (byStandIns names) (renameAll names n) := by
  have first := renamed_foldl (fun x => x.1.1) (fun x => standIn x.2) (moves names) n
  have second := renamed_foldl (fun x => standIn x.2) (fun x => x.1.2) (moves names)
    ((moves names).foldl (fun n x => n.renameDomain x.1.1 (standIn x.2)) n)
  rw [renameAll_eq]
  exact first.trans second

section Moves

variable {names : OrdMap String String} {x y : (String × String) × Nat}

theorem mem_moves : x ∈ moves names ↔ names.entries[x.2]? = some x.1 ∧ x.1.1 ≠ x.1.2 := by
  rw [moves, List.mem_filter, List.mem_zipIdx_iff_getElem?, decide_eq_true_eq]

theorem mem_entries_of_mem_moves (hx : x ∈ moves names) : x.1 ∈ names.entries :=
  List.mem_of_getElem? (mem_moves.mp hx).1

/-- Each name belongs to one move. -/
theorem moves_unique (hx : x ∈ moves names) (hy : y ∈ moves names) (same : x.1.1 = y.1.1) :
    x = y := by
  have entry : x.1 = y.1 := names.increasing.eq_of_key_eq (mem_entries_of_mem_moves hx)
    (mem_entries_of_mem_moves hy) same
  have here := (mem_moves.mp hx).1
  have there := (mem_moves.mp hy).1
  obtain ⟨within, -⟩ := List.getElem?_eq_some_iff.mp here
  have place : x.2 = y.2 :=
    (List.getElem?_inj within names.increasing.nodup).mp (here.trans (entry ▸ there.symm))
  exact Prod.ext entry place

/-- Each stand-in belongs to one move. -/
theorem moves_unique_standIn (hx : x ∈ moves names) (hy : y ∈ moves names)
    (same : standIn x.2 = standIn y.2) : x = y := by
  have place : x.2 = y.2 := standIn_injective same
  have entry : some x.1 = some y.1 := by
    rw [← (mem_moves.mp hx).1, ← (mem_moves.mp hy).1, place]
  exact Prod.ext (Option.some.inj entry) place

end Moves

/-- By way of the stand-ins, an ordinary name becomes what the map says, once. -/
theorem byStandIns_eq {names : OrdMap String String}
    (ordinary : ∀ e ∈ names.entries, Ordinary e.1 ∧ Ordinary e.2) {d : String}
    (plain : Ordinary d) : byStandIns names d = names.getD d d := by
  by_cases moved : ∃ x ∈ moves names, x.1.1 = d
  · obtain ⟨x, hx, rfl⟩ := moved
    have entry := mem_entries_of_mem_moves hx
    -- In the first round the name makes room for its stand-in, which is not an old name.
    have first : inTurn (fun y => y.1.1) (fun y => standIn y.2) (moves names) x.1.1 =
        standIn x.2 := by
      refine inTurn_of_mem ⟨x, hx, rfl⟩ (fun y hy same => ?_) fun y hy same => ?_
      · rw [moves_unique hy hx same]
      · exact (ordinary y.1 (mem_entries_of_mem_moves hy)).1.ne_standIn x.2 same.symm
    -- In the second round the stand-in becomes the new name, which is not a stand-in.
    have second : inTurn (fun y => standIn y.2) (fun y => y.1.2) (moves names) (standIn x.2) =
        x.1.2 := by
      refine inTurn_of_mem ⟨x, hx, rfl⟩ (fun y hy same => ?_) fun y _ => ?_
      · rw [moves_unique_standIn hy hx same]
      · exact (ordinary x.1 entry).2.ne_standIn y.2
    rw [byStandIns, first, second, OrdMap.getD, OrdMap.get?_eq_some_iff.mpr entry]
    rfl
  · -- The map has no entry for the name, or one that keeps it.
    have kept : names.getD d d = d := by
      cases found : names.get? d with
      | none => rw [OrdMap.getD, found, Option.getD_none]
      | some e =>
        rw [OrdMap.getD, found, Option.getD_some]
        by_contra other
        have entry := OrdMap.get?_eq_some_iff.mp found
        obtain ⟨i, here⟩ := List.getElem?_of_mem entry
        exact moved ⟨((d, e), i), mem_moves.mpr ⟨here, Ne.symm other⟩, rfl⟩
    rw [byStandIns, inTurn_of_ne fun x hx same => moved ⟨x, hx, same⟩,
      inTurn_of_ne fun x _ => plain.ne_standIn x.2, kept]

/-- The rename decorator replaces all names at once, whatever the map: every declared domain, every
domain of clocked statements, every reference to a clock or reset and every field of a cell that
named `d` names what the map has for `d`, or still `d` if it has no entry. Nothing but names is
changed, and only names that start like a stand-in are not allowed for. -/
theorem rename_substitutes (n : Netlist) (names : OrdMap String String)
    (plain : ∀ d ∈ n.occurring, Ordinary d)
    (ordinary : ∀ e ∈ names.entries, Ordinary e.1 ∧ Ordinary e.2) :
    let f := fun d => names.getD d d
    let n' := apply n (.rename names)
    n.Relabeled f n' ∧
    n'.domains.map (·.name) = (n.domains.map (·.name)).map f ∧
    Images f n.sync.keys.toList n'.sync.keys.toList ∧
    Images f n.occurring n'.occurring := by
  intro f n'
  have renamed : n.Renamed f n' :=
    (renamed_renameAll names n).congr fun d hd => byStandIns_eq ordinary (plain d hd)
  exact ⟨renamed.relabeled, renamed.names_eq, renamed.keys, renamed.occurring⟩

/-- Two domains that trade places, a chain, a name that is kept, and one that joins it. -/
def shuffle : OrdMap String String :=
  .ofList [("a", "b"), ("b", "a"), ("c", "d"), ("d", "e"), ("x", "x"), ("y", "x")]

def sevenDomains : Netlist where
  comb := [.assign (.signal ⟨⟨0⟩, "o", .unsigned 1, 0, false⟩) (.clock "a")]
  domains := ["a", "b", "c", "d", "x", "y", "z"].map fun name =>
    { name, clk := ⟨⟨1⟩, "clk", .unsigned 1, 0, false⟩, rst := none, asyncReset := false }

theorem sevenDomains_shuffled :
    (∀ d ∈ sevenDomains.occurring, Ordinary d) ∧
    (∀ e ∈ shuffle.entries, Ordinary e.1 ∧ Ordinary e.2) ∧
    (apply sevenDomains (.rename shuffle)).domains.map (·.name) =
      ["b", "a", "d", "e", "x", "x", "z"] ∧
    "y" ∉ (apply sevenDomains (.rename shuffle)).occurring := by
  have plain : ∀ d ∈ sevenDomains.occurring, Ordinary d := by decide +kernel
  have ordinary : ∀ e ∈ shuffle.entries, Ordinary e.1 ∧ Ordinary e.2 := by decide +kernel
  obtain ⟨-, names, -, occurring⟩ := rename_substitutes sevenDomains shuffle plain ordinary
  refine ⟨plain, ordinary, names.trans (by decide +kernel), fun left => ?_⟩
  revert left
  rw [occurring]
  decide +kernel

end Decorator

end Gateware
