import Gateware.Conversion.Basic
import Gateware.Proofs.Renumbering.Lowering
import Gateware.Proofs.Verilog.Module

/-!
# Conversion under other numbers

The text of a converted netlist depends on the numbers of its signals and cells only through their
order.

## Main result

`convert_shown_renumber`: numbers that keep the order of the identities in a netlist and its ports
change nothing that a conversion shows, and no fault. The numbers drawn on the way may differ as
well, as long as they are above those of the netlist.

## Proof strategy

`tracks_convert` is the result for a numbering of all numbers that also takes the one supply to the
other. A numbering of the identities at hand need not extend to such a one: it may close gaps. So
both netlists are renumbered once more, by numberings of all numbers that lead to one netlist and
one supply (`exists_common`).
-/
namespace Gateware

variable {r : Numbering}

/-! ### Numberings that meet -/

section Spread

variable {key val : Nat → Nat} {ids : List Nat}

/-- The largest `val` among those whose `key` is up to `i`. -/
def reached (key val : Nat → Nat) (ids : List Nat) (i : Nat) : Nat :=
  ((ids.filter (key · ≤ i)).map val).max?.getD 0

theorem le_reached {a i : Nat} (ha : a ∈ ids) (le : key a ≤ i) : val a ≤ reached key val ids i := by
  apply List.le_max?_getD_of_mem
  exact List.mem_map_of_mem (List.mem_filter.mpr ⟨ha, decide_eq_true le⟩)

theorem reached_le {v i : Nat} (bound : ∀ a ∈ ids, key a ≤ i → val a ≤ v) :
    reached key val ids i ≤ v := by
  rw [reached]
  cases largest : ((ids.filter (key · ≤ i)).map val).max? with
  | none => exact Nat.zero_le v
  | some m =>
    obtain ⟨a, ha, rfl⟩ := List.mem_map.mp (List.max?_mem largest)
    obtain ⟨ha, le⟩ := List.mem_filter.mp ha
    exact bound a ha (of_decide_eq_true le)

/-- Room for every `val` at its `key`. -/
def spread (key val : Nat → Nat) (ids : List Nat) (i : Nat) : Nat := i + reached key val ids i

theorem spread_strictMono : StrictMono (spread key val ids) := by
  intro i j lt
  have grows : reached key val ids i ≤ reached key val ids j :=
    reached_le fun a ha le => le_reached ha (le.trans lt.le)
  exact Nat.add_lt_add_of_lt_of_le lt grows

theorem spread_eq {a i : Nat} (ha : a ∈ ids) (le : key a ≤ i)
    (last : ∀ b ∈ ids, key b ≤ i → val b ≤ val a) : spread key val ids i = i + val a :=
  congrArg (i + ·) (le_antisymm (reached_le last) (le_reached ha le))

/-- Numbers `ids` below `s` and their new numbers below `t` have a common numbering, one in which
all from `s` on and all from `t` on are the same. -/
theorem exists_common {f : Nat → Nat} {s t : Nat} (mono : ∀ a ∈ ids, ∀ b ∈ ids, a < b → f a < f b)
    (below : ∀ a ∈ ids, a < s ∧ f a < t) :
    ∃ g h : Nat → Nat, StrictMono g ∧ StrictMono h ∧ (∀ a ∈ ids, h (f a) = g a) ∧
      ∃ u, ∀ m, g (s + m) = u + m ∧ h (t + m) = u + m := by
  -- the next numbers take part as one more pair
  let f' := Function.update f s t
  have next : f' s = t := Function.update_self s t f
  have old : ∀ a ∈ ids, f' a = f a := fun a ha => Function.update_of_ne (below a ha).1.ne t f
  have top : ∀ b ∈ s :: ids, b ≤ s ∧ f' b ≤ t := by
    intro b hb
    rcases List.mem_cons.mp hb with rfl | hb
    · exact ⟨le_rfl, next.le⟩
    · exact ⟨(below b hb).1.le, (old b hb).trans_le (below b hb).2.le⟩
  have order : ∀ a ∈ s :: ids, ∀ b ∈ s :: ids, f' a ≤ f' b ↔ a ≤ b := by
    have lt : ∀ a ∈ s :: ids, ∀ b ∈ s :: ids, a < b → f' a < f' b := by
      intro a ha b hb lt
      have mem : a ∈ ids := (List.mem_cons.mp ha).resolve_left (lt.trans_le (top b hb).1).ne
      rw [old a mem]
      rcases List.mem_cons.mp hb with rfl | hb
      · exact (below a mem).2.trans_eq next.symm
      · exact (mono a mem b hb lt).trans_eq (old b hb).symm
    intro a ha b hb
    exact StrictMonoOn.le_iff_le (s := {x | x ∈ s :: ids}) (fun a ha b hb => lt a ha b hb) ha hb
  -- old and new numbers both go to their sum
  refine ⟨spread id f' (s :: ids), spread f' id (s :: ids), spread_strictMono, spread_strictMono,
    ?_, s + t, ?_⟩
  · intro a ha
    have mem : a ∈ s :: ids := List.mem_cons_of_mem s ha
    have mine : spread id f' (s :: ids) a = a + f' a :=
      spread_eq mem le_rfl fun b hb le => (order b hb a mem).mpr le
    have theirs : spread f' id (s :: ids) (f' a) = f' a + a :=
      spread_eq mem le_rfl fun b hb le => (order b hb a mem).mp le
    rw [← old a ha, theirs, mine, Nat.add_comm]
  · intro m
    have mem : s ∈ s :: ids := List.mem_cons_self
    have mine : spread id f' (s :: ids) (s + m) = s + m + f' s :=
      spread_eq mem (Nat.le_add_right s m) fun b hb _ => (order b hb s mem).mpr (top b hb).1
    have theirs : spread f' id (s :: ids) (t + m) = t + m + s :=
      spread_eq mem (by omega) fun b hb _ => (top b hb).1
    rw [mine, theirs, next]
    omega

end Spread

/-! ### Netlists renumbered twice -/

theorem Netlist.renumber_trans {p q : Numbering} [q.Increasing] [r.Increasing] (n : Netlist)
    (signals : ∀ s ∈ Verilog.mentioned n, (s.renumber p).renumber q = s.renumber r)
    (cells : ∀ e ∈ n.cells.entries, (e.1.renumber p).renumber q = e.1.renumber r ∧
      (e.2.id.renumber p).renumber q = e.2.id.renumber r) :
    (n.renumber p).renumber q = n.renumber r := by
  simp only [Verilog.mentioned, OrdSet.mem_ofList, List.mem_append, List.mem_flatMap] at signals
  have stmts : ∀ ss ⊆ n.stmts, Stmt.renumberOf q (Stmt.renumberOf p ss) = Stmt.renumberOf r ss := by
    intro ss sub
    refine Stmt.mapExprsOf_trans ss fun e he => Expr.renumber_trans e fun s hs => ?_
    have whole : e ∈ Stmt.exprsOf n.stmts := by
      rw [Stmt.exprsOf_eq, List.mem_flatMap] at he ⊢
      obtain ⟨x, hx, he⟩ := he
      exact ⟨x, sub hx, he⟩
    exact signals s (.inl (.inl ⟨e, whole, hs⟩))
  have comb : ((n.renumber p).renumber q).comb = (n.renumber r).comb :=
    stmts n.comb (List.subset_append_left _ _)
  have sync : ((n.renumber p).renumber q).sync = (n.renumber r).sync := by
    apply OrdMap.ext_entries
    rw [entries_sync_renumber, entries_sync_renumber, entries_sync_renumber, List.map_map]
    refine List.map_congr_left fun e he => congrArg (Prod.mk e.1) (stmts e.2 fun s hs => ?_)
    exact mem_stmts.mpr (.inr ⟨e.1, e.2, OrdMap.get?_eq_some_iff.mpr he, hs⟩)
  have replaced : ((n.renumber p).renumber q).cells = (n.renumber r).cells := by
    apply OrdMap.ext_entries
    -- `p` keeps the order of the keys, for `q` and `r` do
    have order : ∀ a ∈ n.cells.keys, ∀ b ∈ n.cells.keys, compare a b = .lt →
        compare (a.renumber p) (b.renumber p) = .lt := by
      intro a ha b hb lt
      obtain ⟨x, hx, rfl⟩ := List.mem_map.mp ha
      obtain ⟨y, hy, rfl⟩ := List.mem_map.mp hb
      rw [← CellId.keeps_renumber (r := q), (cells x hx).1, (cells y hy).1, CellId.keeps_renumber,
        lt]
    change ((n.cells.rekey _ _).rekey _ _).entries = (n.cells.rekey _ _).entries
    rw [OrdMap.entries_rekey CellId.keeps_renumber, OrdMap.entries_rekey_of_lt order,
      OrdMap.entries_rekey CellId.keeps_renumber, List.map_map]
    refine List.map_congr_left fun e he => Prod.ext (cells e he).1 ?_
    refine Cell.renumber_trans e.2 (cells e he).2 fun x hx s hs => ?_
    exact signals s (.inl (.inr ⟨e.2, List.mem_map_of_mem he, x, hx, hs⟩))
  have domains : ((n.renumber p).renumber q).domains = (n.renumber r).domains := by
    simp only [renumber, List.map_map]
    refine List.map_congr_left fun d hd => ClockDomain.renumber_trans d fun s hs => ?_
    exact signals s (.inr ⟨d, hd, hs⟩)
  exact (Netlist.mk.injEq ..).mpr ⟨comb, sync, replaced, domains⟩

/-! ### Stages of a conversion -/

namespace Conversion

open Lockstep (OrFail)
open Lowering (Table Tracked)

theorem elaborate_netlist (n : Netlist) (config : Config.Elaborate) :
    elaborate (.netlist n) config = pure (n, []) := rfl

theorem tracks_declareMissing [r.Increasing] (create : Bool) (n : Netlist) :
    Tracks r (Prod.map (Netlist.renumber r) id) (declareMissing create n)
      (declareMissing create (n.renumber r)) := by
  rw [declareMissing, declareMissing, undeclared_renumber]
  cases undeclared n with
  | nil => exact OrFail.pure (n, [])
  | cons d ds =>
    cases create with
    | false => exact OrFail.throw _
    | true =>
      have fresh : Tracks r (List.map (ClockDomain.renumber r))
          ((d :: ds).mapM fun d => liftM (ClockDomain.fresh d))
          ((d :: ds).mapM fun d => liftM (ClockDomain.fresh d)) :=
        OrFail.mapM (List.map_id _).symm fun name _ => OrFail.lift (Draws.domain name)
      apply fresh.bind
      intro domains
      -- the warnings name the domains, and names are kept
      have grown : ({ n.renumber r with
            domains := (n.renumber r).domains ++ domains.map (ClockDomain.renumber r) } : Netlist) =
          Netlist.renumber r { n with domains := n.domains ++ domains } := by
        simp only [Netlist.renumber, List.map_append]
      rw [grown]
      exact OrFail.pure (_, (d :: ds).map createdWarning)

theorem tracks_prepare [r.Increasing] {table : Table} (tracked : ∀ l ∈ table.values, Tracked r l)
    (n : Netlist) (config : Config) :
    Tracks r (Prod.map (Netlist.renumber r) id) (prepare (.netlist n) table config)
      (prepare (.netlist (n.renumber r)) table config) := by
  rw [prepare, prepare, elaborate_netlist, elaborate_netlist, pure_bind, pure_bind]
  refine (OrFail.check (checkStrays_renumber n)).bind fun _ => ?_
  refine (Lowering.tracks_lowerNetlist tracked Lowering.roundLimit n).bind ?_
  rintro ⟨n, memo⟩
  refine (OrFail.check (checkValues_renumber n)).bind fun _ => ?_
  refine (OrFail.check (Netlist.checkDomains_renumber n)).bind fun _ => ?_
  refine (tracks_declareMissing config.codegen.createClockDomains n).bind ?_
  rintro ⟨n, created⟩
  refine (OrFail.except (Netlist.resolve_renumber n)).bind fun resolved => ?_
  refine (OrFail.check (Netlist.checkDrivers_renumber resolved)).bind fun _ => ?_
  have warned := unusedWarnings_renumber (r := r) n
  simp only [warned]
  exact OrFail.pure (resolved, _)

/-- A converted design under other numbers. -/
def Output.renumber (r : Numbering) (o : Output) : Output :=
  { o with
    names := o.names.rekey (Signal.renumber r) id
    ports := o.ports.map (Verilog.Port.renumber r) }

theorem Output.portNames_renumber [r.Increasing] (o : Output) :
    (o.renumber r).portNames = o.portNames := by
  simp only [portNames, renumber, List.filterMap_map, Function.comp_def, Verilog.Port.renumber,
    OrdMap.get?_rekey Signal.keeps_renumber, Option.map_id, id_def]

theorem tracks_plan [r.Increasing] {table : Table} (tracked : ∀ l ∈ table.values, Tracked r l)
    (n : Netlist) (ios : List Signal) (config : Config) :
    Tracks r (Prod.map (Netlist.renumber r) (Prod.map (List.map (Verilog.Port.renumber r)) id))
      (plan (.netlist n) ios table config)
      (plan (.netlist (n.renumber r)) (ios.map (Signal.renumber r)) table config) := by
  rw [plan, plan]
  refine (OrFail.check rfl).bind fun policy => ?_
  refine (tracks_prepare tracked n config).bind ?_
  rintro ⟨n, warnings⟩
  have listed := ports_renumber (r := r) n ios
  have undriven := undrivenWarnings_renumber (r := r) n (ports n ios)
  have truncated := truncationWarnings_renumber (r := r) n
  simp only [Prod.map, listed, undriven, truncated]
  refine (OrFail.check rfl).bind fun diagnostics => ?_
  exact OrFail.pure (n, ports n ios, diagnostics)

theorem tracks_convert [r.Increasing] {table : Table} (tracked : ∀ l ∈ table.values, Tracked r l)
    (n : Netlist) (ios : List Signal) (config : Config) :
    OrFail (Aligned r) (Output.renumber r) (convert (.netlist n) ios table config)
      (convert (.netlist (n.renumber r)) (ios.map (Signal.renumber r)) table config) := by
  rw [convert, convert]
  refine (OrFail.adapt Verilog.Halt.fault (tracks_plan tracked n ios config)).bind ?_
  rintro ⟨n, ports, diagnostics⟩
  refine (OrFail.except (Verilog.write_renumber n ports config.codegen)).bind fun w => ?_
  exact OrFail.pure _

/-- What a conversion shows. -/
structure Shown where
  module : String
  source : String
  files : List Verilog.DataFile
  ports : List (String × Direction)
  diagnostics : List Diagnostic

def Output.shown (o : Output) : Shown := ⟨o.module, o.source, o.files, o.portNames, o.diagnostics⟩

theorem Output.shown_renumber [r.Increasing] (o : Output) : (o.renumber r).shown = o.shown := by
  rw [shown, portNames_renumber]
  rfl

/-- What a conversion shows under a numbering that takes one supply to the other. -/
theorem convert_shown_eq [r.Increasing] {table : Table} {s t : Supply} (config : Config)
    (built : ∀ l ∈ table.values, l ∈ Lowering.builtin) (n : Netlist) (ios : List Signal)
    (aligned : Aligned r s t) :
    ((convert (.netlist (n.renumber r)) (ios.map (Signal.renumber r)) table config).run.run t).1.map
        Output.shown =
      ((convert (.netlist n) ios table config).run.run s).1.map Output.shown := by
  have tracked : ∀ l ∈ table.values, Tracked r l := fun l hl =>
    Lowering.tracked_of_builtin (built l hl)
  rw [(tracks_convert tracked n ios config s t aligned).1]
  cases ((convert (.netlist n) ios table config).run.run s).1 with
  | error f => rfl
  | ok o => exact congrArg Except.ok (Output.shown_renumber o)

/-! ### Numbers of the identities at hand -/

/-- The numbers of the signals in a netlist and among its ports. -/
def signalNumbers (n : Netlist) (ios : List Signal) : List Nat :=
  ((Verilog.mentioned n).toList ++ ios).map (·.id.index)

/-- The numbers of the cells in a netlist. -/
def cellNumbers (n : Netlist) : List Nat :=
  n.cells.entries.flatMap fun e => [e.1.index, e.2.id.index]

/-- The numbering keeps the order of the identities at hand, and what is drawn from `s` is above
them, what is drawn from `t` above their new numbers. -/
structure Suits (r : Numbering) (n : Netlist) (ios : List Signal) (s t : Supply) : Prop where
  signals : ∀ a ∈ signalNumbers n ios, ∀ b ∈ signalNumbers n ios, a < b → r.signal a < r.signal b
  cells : ∀ a ∈ cellNumbers n, ∀ b ∈ cellNumbers n, a < b → r.cell a < r.cell b
  freshSignals : ∀ a ∈ signalNumbers n ios, a < s.nextSignal ∧ r.signal a < t.nextSignal
  freshCells : ∀ a ∈ cellNumbers n, a < s.nextCell ∧ r.cell a < t.nextCell

/-- A conversion shows the same under other numbers, and fails for the same reason. -/
theorem convert_shown_renumber {n : Netlist} {ios : List Signal} {table : Table} {s t : Supply}
    (config : Config) (built : ∀ l ∈ table.values, l ∈ Lowering.builtin)
    (suits : Suits r n ios s t) :
    ((convert (.netlist (n.renumber r)) (ios.map (Signal.renumber r)) table config).run.run t).1.map
        Output.shown =
      ((convert (.netlist n) ios table config).run.run s).1.map Output.shown := by
  obtain ⟨g, h, mono, mono', meet, u, next⟩ := exists_common suits.signals suits.freshSignals
  obtain ⟨gc, hc, monoc, monoc', meetc, uc, nextc⟩ := exists_common suits.cells suits.freshCells
  -- both netlists under numbers in which they are one, drawn from one supply
  let mine : Numbering := ⟨g, gc⟩
  let theirs : Numbering := ⟨h, hc⟩
  have : mine.Increasing := ⟨mono, monoc⟩
  have : theirs.Increasing := ⟨mono', monoc'⟩
  have signals : ∀ x : Signal, x.id.index ∈ signalNumbers n ios →
      (x.renumber r).renumber theirs = x.renumber mine := by
    intro x hx
    exact congrArg (fun i => { x with id := ⟨i⟩ }) (meet _ hx)
  have netlists : (n.renumber r).renumber theirs = n.renumber mine := by
    apply Netlist.renumber_trans
    · intro x hx
      exact signals x (List.mem_map_of_mem (List.mem_append_left _ (OrdSet.mem_toList.mpr hx)))
    · intro e he
      have number : ∀ i ∈ [e.1.index, e.2.id.index], hc (r.cell i) = gc i := fun i hi =>
        meetc i (List.mem_flatMap.mpr ⟨e, he, hi⟩)
      exact ⟨congrArg CellId.mk (number _ List.mem_cons_self),
        congrArg CellId.mk (number _ (List.mem_cons_of_mem _ List.mem_cons_self))⟩
  have ports : (ios.map (Signal.renumber r)).map (Signal.renumber theirs) =
      ios.map (Signal.renumber mine) := by
    rw [List.map_map]
    refine List.map_congr_left fun x hx => signals x ?_
    exact List.mem_map_of_mem (List.mem_append_right _ hx)
  have before : Aligned mine s ⟨u, uc⟩ := ⟨fun m => (next m).1, fun m => (nextc m).1⟩
  have after : Aligned theirs t ⟨u, uc⟩ := ⟨fun m => (next m).2, fun m => (nextc m).2⟩
  have left := convert_shown_eq config built n ios before
  have right := convert_shown_eq config built (n.renumber r) (ios.map (Signal.renumber r)) after
  rw [netlists, ports] at right
  rw [← left, ← right]

/-! ### A value that crosses into a domain -/

def sampled : Signal := ⟨⟨4⟩, "d", .unsigned 1, 0, false⟩

def settled : Signal := ⟨⟨9⟩, "q", .unsigned 1, 0, false⟩

def inverted : Signal := ⟨⟨12⟩, "y", .unsigned 1, 0, false⟩

/-- A value that crosses through two registers and leaves inverted. -/
def crossing : Netlist :=
  (({} : Netlist).addCell ⟨⟨3⟩, .multiReg ⟨sampled, settled, "sys", 2⟩⟩).addComb
    [.assign inverted (.unary .invert settled)]

/-- Four, nine and twelve become one, two and three. -/
def closing : Numbering := ⟨(· / 4), (· / 2)⟩

theorem crossing_shown_renumber :
    Suits closing crossing [sampled, inverted] ⟨13, 4⟩ ⟨40, 2⟩ ∧
    ((convert (.netlist crossing) [sampled, inverted] .generic {}).run.run
        ⟨13, 4⟩).1.toBool = true ∧
    ((convert (.netlist (crossing.renumber closing))
        ([sampled, inverted].map (Signal.renumber closing)) .generic {}).run.run
          ⟨40, 2⟩).1.map Output.shown =
      ((convert (.netlist crossing) [sampled, inverted] .generic {}).run.run ⟨13, 4⟩).1.map
        Output.shown := by
  have suits : Suits closing crossing [sampled, inverted] ⟨13, 4⟩ ⟨40, 2⟩ :=
    ⟨by decide, by decide, by decide, by decide⟩
  exact ⟨suits, by decide +kernel, convert_shown_renumber {} Lowering.builtin_generic suits⟩

end Conversion

end Gateware
