import Gateware.Proofs.Ordered
import Gateware.Verilog.Name
import Mathlib.Data.List.Nodup
import Mathlib.Data.List.Perm.Subperm

/-!
# Identifiers in one scope

All names of a module come out of one scope. Making a hint legal sends many hints to one text, and a
number behind a text may again be what somebody asked for, so what is handed out is told apart by
the scope alone: a name is given only if it is free.

## Main results

* `Scope.numbered_spec`: the search for a number ends at the first candidate that is free, after at
  most as many candidates as names are taken.
* `Scope.legal_free`, `Scope.free_not_mem`: what is given is a legal name that nobody has.
* `Taken.claim`: distinctness and legality of the names given so far are kept by every request.

## Reserved words

The list of keywords lacks some reserved words of the language. `Taken` says of those which of them
are in use: the ones that some hint reads as.
-/
namespace Gateware.Verilog

/-! ### Legal names -/

/-- The reserved words of the language that are not on the list of keywords. -/
def unlisted : List String :=
  ["incdir", "include", "noshowcancelled", "pulsestyle_ondetect", "pulsestyle_onevent",
   "showcancelled"]

/-- The reserved words of the language. -/
def reserved : List String := keywords ++ unlisted

/-- What a name may start with. -/
def isInitial (c : Char) : Bool := c.isAlpha || c = '_'

/-- What a name may go on with. -/
def isWordChar (c : Char) : Bool := c.isAlphanum || c = '_'

/-- A letter or an underscore, followed by letters, digits and underscores. -/
structure Identifier (name : String) : Prop where
  initial : name.toList.head?.any isInitial = true
  chars : ∀ c ∈ name.toList, isWordChar c = true

/-- A name that can be declared, as far as the list of keywords tells. -/
structure Legal (name : String) : Prop extends Identifier name where
  free : isKeyword name = false

/-- Of the reserved words only those that are not listed pass as legal names. -/
theorem Legal.mem_unlisted {name : String} (h : Legal name) (word : name ∈ reserved) :
    name ∈ unlisted := by
  rcases List.mem_append.mp word with listed | rest
  · have keyword : isKeyword name = true := List.contains_iff_mem.mpr listed
    rw [h.free] at keyword
    cases keyword
  · exact rest

theorem isWordChar_of_isInitial {c : Char} (h : isInitial c = true) : isWordChar c = true := by
  simp only [isInitial, isWordChar, Char.isAlphanum, Bool.or_eq_true] at h ⊢
  tauto

/-- A letter, a digit or an underscore is a digit or may be first. -/
theorem isInitial_of_not_isDigit {c : Char} (h : isWordChar c = true) (digit : ¬ c.isDigit = true) :
    isInitial c = true := by
  simp only [isInitial, isWordChar, Char.isAlphanum, Bool.or_eq_true] at h ⊢
  tauto

theorem not_isDigit_of_isInitial {c : Char} (h : isInitial c = true) : c.isDigit = false := by
  by_contra digit
  have low : (decide ('0'.val ≤ c.val) && decide (c.val ≤ '9'.val)) = true :=
    Bool.not_eq_false _ ▸ digit
  rcases Bool.or_eq_true_iff.mp h with letter | mark
  · have high : (decide ('A'.val ≤ c.val ∧ c.val ≤ 'Z'.val) ||
        decide ('a'.val ≤ c.val) && decide (c.val ≤ 'z'.val)) = true := letter
    simp only [Bool.or_eq_true, Bool.and_eq_true, decide_eq_true_eq, UInt32.le_iff_toNat_le]
      at low high
    have nine : '9'.val.toNat = 57 := rfl
    have upper : 'A'.val.toNat = 65 := rfl
    have lower : 'a'.val.toNat = 97 := rfl
    omega
  · obtain rfl := of_decide_eq_true mark
    exact absurd low (by decide)

theorem Identifier.ofList_cons {c : Char} {cs : List Char} (initial : isInitial c = true)
    (chars : ∀ d ∈ cs, isWordChar d = true) : Identifier (String.ofList (c :: cs)) := by
  constructor
  · simpa using initial
  · simpa using ⟨isWordChar_of_isInitial initial, chars⟩

theorem Identifier.append {name more : String} (h : Identifier name)
    (chars : ∀ c ∈ more.toList, isWordChar c = true) : Identifier (name ++ more) := by
  have initial := h.initial
  constructor
  · rw [String.toList_append]
    cases letters : name.toList with
    | nil =>
      rw [letters] at initial
      cases initial
    | cons c cs =>
      rw [letters] at initial
      exact initial
  · rw [String.toList_append]
    exact List.forall_mem_append.mpr ⟨h.chars, chars⟩

/-- There is no underscore in a keyword. -/
theorem isKeyword_of_underscore {name : String} (h : '_' ∈ name.toList) :
    isKeyword name = false := by
  have plain : ∀ word ∈ keywords, '_' ∉ word.toList := by decide +kernel
  cases keyword : isKeyword name with
  | false => rfl
  | true => exact absurd h (plain name (List.contains_iff_mem.mp keyword))

/-- A hint as it reads with what is not allowed in a name replaced. -/
def spelled (hint : String) : List Char := hint.toList.map fun c => if isWordChar c then c else '_'

theorem isWordChar_of_mem_spelled {hint : String} {c : Char} (h : c ∈ spelled hint) :
    isWordChar c = true := by
  obtain ⟨d, -, rfl⟩ := List.mem_map.mp h
  split
  next word => exact word
  next => rfl

/-- The text that a hint is made into before keywords are looked at. -/
def stem (hint : String) : String :=
  let cs := spelled hint
  String.ofList (if cs.head?.all Char.isDigit then '_' :: cs else cs)

theorem legalize_eq (hint : String) :
    legalize hint = if isKeyword (stem hint) then stem hint ++ "_" else stem hint := by
  have same : spelled hint =
      hint.toList.map fun c => if c.isAlphanum || c = '_' then c else '_' := rfl
  unfold legalize stem
  rw [← same]
  cases spelled hint with
  | nil => rfl
  | cons c cs => by_cases digit : c.isDigit = true <;> simp [digit]

theorem identifier_stem (hint : String) : Identifier (stem hint) := by
  have word : ∀ c ∈ spelled hint, isWordChar c = true := fun c => isWordChar_of_mem_spelled
  unfold stem
  cases letters : spelled hint with
  | nil => exact .ofList_cons rfl fun c hc => absurd hc List.not_mem_nil
  | cons c cs =>
    rw [letters] at word
    obtain ⟨first, rest⟩ := List.forall_mem_cons.mp word
    dsimp only
    split
    next => exact .ofList_cons rfl word
    next digit => exact .ofList_cons (isInitial_of_not_isDigit first digit) rest

/-- Every hint is made into a legal name. -/
theorem legal_legalize (hint : String) : Legal (legalize hint) := by
  rw [legalize_eq]
  split
  next =>
    have word : Identifier (stem hint ++ "_") :=
      (identifier_stem hint).append (by simp [isWordChar])
    exact { word with free := isKeyword_of_underscore (by simp) }
  next plain => exact { identifier_stem hint with free := Bool.not_eq_true _ ▸ plain }

/-- A hint that is a legal name is left as it is. -/
theorem legalize_of_legal {name : String} (h : Legal name) : legalize name = name := by
  have same : spelled name = name.toList :=
    (List.map_congr_left fun c hc => if_pos (h.chars c hc)).trans (List.map_id _)
  have whole : stem name = name := by
    have initial := h.initial
    unfold stem
    rw [same]
    cases letters : name.toList with
    | nil =>
      rw [letters] at initial
      cases initial
    | cons c cs =>
      rw [letters] at initial
      dsimp only
      rw [if_neg (by simpa using not_isDigit_of_isInitial initial), ← letters, String.ofList_toList]
  rw [legalize_eq, whole, h.free]
  rfl

/-! ### Texts with a number behind them -/

theorem isDigit_of_mem_toString {n : Nat} {c : Char} (h : c ∈ (toString n).toList) :
    c.isDigit = true := by
  rw [Nat.toString_eq_ofList_toDigits, String.toList_ofList] at h
  exact Nat.isDigit_of_mem_toDigits (by decide) (by decide) h

theorem isWordChar_of_mem_toString {n : Nat} {c : Char} (h : c ∈ (toString n).toList) :
    isWordChar c = true := by
  simp [isWordChar, Char.isAlphanum, isDigit_of_mem_toString h]

/-- None of the reserved words that are not listed ends with a number. -/
theorem append_toString_not_mem_unlisted (text : String) (n : Nat) :
    text ++ toString n ∉ unlisted := by
  have letters : ∀ word ∈ unlisted, word.toList.getLast?.all (!·.isDigit) = true := by
    decide +kernel
  intro word
  have last := letters _ word
  have number : (toString n).toList ≠ [] := by
    rw [Nat.toString_eq_ofList_toDigits, String.toList_ofList]
    exact Nat.toDigits_ne_nil
  rw [String.toList_append, List.getLast?_append_of_ne_nil _ number,
    List.getLast?_eq_some_getLast number, Option.all_some,
    isDigit_of_mem_toString (List.getLast_mem number)] at last
  cases last

/-- The name with number `i`, counted from zero, that is tried for a text. -/
def candidate (base : String) (i : Nat) : String := s!"{base}_{i + 1}"

theorem candidate_injective (base : String) : Function.Injective (candidate base) :=
  fun _ _ same => Nat.succ.inj (eq_of_append_toString same)

theorem candidate_not_mem_unlisted (base : String) (i : Nat) : candidate base i ∉ unlisted :=
  append_toString_not_mem_unlisted _ _

/-- A name with an underscore somewhere behind it and a number at the end is legal. -/
theorem Identifier.numbered {name mark : String} (h : Identifier name)
    (chars : mark.toList.all isWordChar = true) (underscore : '_' ∈ mark.toList) (i : Nat) :
    Legal (name ++ mark ++ toString i) := by
  have word : Identifier (name ++ mark ++ toString i) :=
    (h.append (List.all_eq_true.mp chars)).append fun c => isWordChar_of_mem_toString
  exact { word with free := isKeyword_of_underscore (by simp [underscore]) }

theorem legal_candidate {base : String} (h : Identifier base) (i : Nat) :
    Legal (candidate base i) :=
  h.numbered (by decide) (by decide) (i + 1)

namespace Scope

/-- The first free candidate is found, and it is among one more than there are names taken. -/
theorem numbered_spec (used : Scope) (base : String) :
    ∃ i ≤ used.toList.length, used.numbered base = candidate base i ∧ candidate base i ∉ used ∧
      ∀ j < i, candidate base j ∈ used := by
  have search : used.numbered base =
      (((List.range (used.toList.length + 1)).find? (candidate base · ∉ used)).map
        (candidate base)).getD base := rfl
  cases found : (List.range (used.toList.length + 1)).find? (candidate base · ∉ used) with
  | some i =>
    obtain ⟨free, range, earlier⟩ := List.find?_range_eq_some.mp found
    rw [found] at search
    refine ⟨i, Nat.lt_succ_iff.mp (List.mem_range.mp range), search, by simpa using free, ?_⟩
    intro j before
    simpa using earlier j before
  | none =>
    -- more different candidates than names taken cannot all be taken
    have taken : (List.range (used.toList.length + 1)).map (candidate base) ⊆ used.toList := by
      intro name tried
      obtain ⟨i, range, rfl⟩ := List.mem_map.mp tried
      simpa [OrdSet.mem_toList] using List.find?_eq_none.mp found i range
    have distinct : ((List.range (used.toList.length + 1)).map (candidate base)).Nodup :=
      List.nodup_range.map (candidate_injective base)
    have length := (List.subperm_of_subset distinct taken).length_le
    rw [List.length_map, List.length_range] at length
    exact absurd length (Nat.not_succ_le_self _)

variable {used : Scope} {hint : String}

theorem free_of_not_mem (h : legalize hint ∉ used) : used.free hint = legalize hint := if_neg h

theorem free_of_mem (h : legalize hint ∈ used) :
    used.free hint = used.numbered (legalize hint) := if_pos h

theorem free_not_mem (used : Scope) (hint : String) : used.free hint ∉ used := by
  by_cases taken : legalize hint ∈ used
  · obtain ⟨i, -, name, free, -⟩ := used.numbered_spec (legalize hint)
    rw [free_of_mem taken, name]
    exact free
  · rw [free_of_not_mem taken]
    exact taken

theorem legal_free (used : Scope) (hint : String) : Legal (used.free hint) := by
  by_cases taken : legalize hint ∈ used
  · obtain ⟨i, -, name, -, -⟩ := used.numbered_spec (legalize hint)
    rw [free_of_mem taken, name]
    exact legal_candidate (legal_legalize hint).toIdentifier i
  · rw [free_of_not_mem taken]
    exact legal_legalize hint

/-- A name that is an unlisted word is what its hint reads as, without a number. -/
theorem legalize_of_free_mem_unlisted (h : used.free hint ∈ unlisted) :
    legalize hint = used.free hint := by
  by_cases taken : legalize hint ∈ used
  · obtain ⟨i, -, name, -, -⟩ := used.numbered_spec (legalize hint)
    rw [free_of_mem taken, name] at h
    exact absurd h (candidate_not_mem_unlisted _ i)
  · exact (free_of_not_mem taken).symm

/-- Once a hint has got its name, the plain form of the hint is in use. -/
theorem legalize_mem_insert_free (used : Scope) (hint : String) :
    legalize hint ∈ used.insert (used.free hint) := by
  by_cases taken : legalize hint ∈ used
  · exact OrdSet.mem_insert.mpr (.inr taken)
  · exact OrdSet.mem_insert.mpr (.inl (free_of_not_mem taken).symm)

end Scope

/-! ### The names given so far -/

/-- The names of a scope, given for hints among others. -/
structure Taken (asked names : List String) (used : Scope) : Prop where
  distinct : names.Nodup
  mem_iff : ∀ name, name ∈ used ↔ name ∈ names
  legal : ∀ name ∈ names, Legal name
  /-- A reserved word that is not listed is a name just in case somebody asks for it. -/
  unlisted_iff : ∀ word ∈ unlisted, word ∈ names ↔ ∃ hint ∈ asked, legalize hint = word

namespace Taken

variable {asked asked' names names' : List String} {used : Scope}

theorem nil : Taken [] [] ∅ := by
  constructor <;> simp

theorem perm (h : Taken asked names used) (same : names.Perm names') : Taken asked names' used where
  distinct := same.nodup_iff.mp h.distinct
  mem_iff name := (h.mem_iff name).trans same.mem_iff
  legal name member := h.legal name (same.mem_iff.mpr member)
  unlisted_iff word listed := same.mem_iff.symm.trans (h.unlisted_iff word listed)

theorem congr_asked (h : Taken asked names used) (same : ∀ hint, hint ∈ asked ↔ hint ∈ asked') :
    Taken asked' names used :=
  { h with
    unlisted_iff := fun word listed => by simpa only [same] using h.unlisted_iff word listed }

/-- A request keeps names apart, whatever the hint. -/
theorem claim (h : Taken asked names used) (hint : String) :
    Taken (hint :: asked) (used.free hint :: names) (used.insert (used.free hint)) where
  distinct := List.nodup_cons.mpr ⟨mt (h.mem_iff _).mpr (used.free_not_mem hint), h.distinct⟩
  mem_iff name := by rw [OrdSet.mem_insert, h.mem_iff, List.mem_cons]
  legal := List.forall_mem_cons.mpr ⟨used.legal_free hint, h.legal⟩
  unlisted_iff word listed := by
    simp only [List.mem_cons, exists_eq_or_imp]
    constructor
    · rintro (rfl | earlier)
      · exact .inl (Scope.legalize_of_free_mem_unlisted listed)
      · exact .inr ((h.unlisted_iff word listed).mp earlier)
    · rintro (rfl | earlier)
      · have used := used.legalize_mem_insert_free hint
        rwa [OrdSet.mem_insert, h.mem_iff] at used
      · exact .inr ((h.unlisted_iff word listed).mpr earlier)

/-- A hint that no unlisted word comes of need not be remembered. -/
theorem forget {hint : String} (h : Taken (hint :: asked) names used)
    (other : legalize hint ∉ unlisted) : Taken asked names used :=
  { h with
    unlisted_iff := fun word listed => by
      rw [h.unlisted_iff word listed]
      simp only [List.mem_cons, exists_eq_or_imp, or_iff_right_iff_imp]
      rintro rfl
      exact absurd listed other }

/-- The reserved words in use are the unlisted ones that somebody asks for. -/
theorem reserved_iff (h : Taken asked names used) {word : String} (listed : word ∈ reserved) :
    word ∈ names ↔ word ∈ unlisted ∧ ∃ hint ∈ asked, legalize hint = word := by
  constructor
  · intro member
    have rest := (h.legal word member).mem_unlisted listed
    exact ⟨rest, (h.unlisted_iff word rest).mp member⟩
  · rintro ⟨rest, hinted⟩
    exact (h.unlisted_iff word rest).mpr hinted

end Taken

end Gateware.Verilog
