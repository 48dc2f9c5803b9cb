import Gateware.Config.Basic
import Gateware.Proofs.Frame
import Mathlib.Data.List.Induction

/-!
# Codes both denied and allowed

A policy tells codes apart by their numbers, but a configuration is refused for the spelling of its
codes. The two agree unless one code is spelled with different numbers of leading zeros.

## Main results

* `Code.eq_iff_respells`: two texts name one code exactly if they differ in leading zeros at most
* `Config.separated_iff_not_respelled`: an accepted configuration keeps the denied codes apart from
  the allowed ones exactly if no allowed code is denied in another spelling

## Proof strategy

A run of digits that does not start with a zero is determined by its number, by induction from the
last digit. Leading zeros leave the number as it is, so the number determines the rest of the run.
-/
namespace Gateware

open Nat (ofDigitChars)

namespace Code

/-- The digits that are left without leading zeros. -/
def significant (cs : List Char) : List Char := cs.dropWhile (· = '0')

/-- The texts start with the same letter and go on the same, leading zeros apart. -/
def Respells (a b : String) : Prop :=
  a.toList.head? = b.toList.head? ∧ significant a.toList.tail = significant b.toList.tail

instance (a b : String) : Decidable (Respells a b) := inferInstanceAs (Decidable (_ ∧ _))

theorem ofDigitChars_concat (cs : List Char) (c : Char) :
    ofDigitChars 10 (cs ++ [c]) 0 = 10 * ofDigitChars 10 cs 0 + (c.toNat - '0'.toNat) := by
  rw [Nat.ofDigitChars_append, Nat.ofDigitChars_cons, Nat.ofDigitChars_nil]

theorem ofDigitChars_significant (cs : List Char) :
    ofDigitChars 10 (significant cs) 0 = ofDigitChars 10 cs 0 := by
  induction cs with
  | nil => rfl
  | cons c cs ih =>
    by_cases zero : c = '0'
    · have dropped : significant (c :: cs) = significant cs := by simp [significant, zero]
      rw [dropped, ih, zero, Nat.ofDigitChars_cons]
      rfl
    · simp [significant, zero]

theorem head?_significant (cs : List Char) : (significant cs).head? ≠ some '0' := by
  intro zero
  have kept := List.head?_dropWhile_not (fun c : Char => decide (c = '0')) cs
  rw [show (cs.dropWhile (· = '0')).head? = some '0' from zero] at kept
  simp at kept

theorem isDigit_of_mem_significant {cs : List Char} (digits : ∀ c ∈ cs, c.isDigit = true) :
    ∀ c ∈ significant cs, c.isDigit = true :=
  fun c hc => digits c ((List.dropWhile_sublist _).mem hc)

theorem head?_of_concat {cs : List Char} {c : Char} (first : (cs ++ [c]).head? ≠ some '0') :
    cs.head? ≠ some '0' := by
  cases cs with
  | nil => simp
  | cons d cs => exact first

theorem ofDigitChars_pos {cs : List Char} (digits : ∀ c ∈ cs, c.isDigit = true)
    (some_digit : cs ≠ []) (first : cs.head? ≠ some '0') : 0 < ofDigitChars 10 cs 0 := by
  induction cs using List.reverseRecOn with
  | nil => exact absurd rfl some_digit
  | append_singleton cs c ih =>
    rw [ofDigitChars_concat]
    by_cases rest : cs = []
    · have digit := Char.isDigit_iff_toNat.mp (digits c (by simp))
      have nonzero : c.toNat ≠ '0'.toNat := by
        intro same
        exact first (by simp [rest, Char.toNat_inj.mp same])
      omega
    · have := ih (fun d hd => digits d (by simp [hd])) rest (head?_of_concat first)
      omega

/-- The number determines the digits if there is no leading zero. -/
theorem eq_of_ofDigitChars_eq {xs ys : List Char} (hx : ∀ c ∈ xs, c.isDigit = true)
    (hy : ∀ c ∈ ys, c.isDigit = true) (firstX : xs.head? ≠ some '0')
    (firstY : ys.head? ≠ some '0') (same : ofDigitChars 10 xs 0 = ofDigitChars 10 ys 0) :
    xs = ys := by
  induction xs using List.reverseRecOn generalizing ys with
  | nil =>
    by_contra other
    have positive := ofDigitChars_pos hy (Ne.symm other) firstY
    rw [← same, Nat.ofDigitChars_nil] at positive
    exact absurd positive (Nat.lt_irrefl 0)
  | append_singleton xs c ih =>
    induction ys using List.reverseRecOn with
    | nil =>
      have positive := ofDigitChars_pos hx (by simp) firstX
      rw [same, Nat.ofDigitChars_nil] at positive
      exact absurd positive (Nat.lt_irrefl 0)
    | append_singleton ys d _ =>
      have digitC := Char.isDigit_iff_toNat.mp (hx c (by simp))
      have digitD := Char.isDigit_iff_toNat.mp (hy d (by simp))
      have zero : '0'.toNat = 48 := rfl
      have nine : '9'.toNat = 57 := rfl
      rw [ofDigitChars_concat, ofDigitChars_concat] at same
      have last : c = d := Char.toNat_inj.mp (by omega)
      have rest : ofDigitChars 10 xs 0 = ofDigitChars 10 ys 0 := by omega
      rw [last, ih (fun e he => hx e (by simp [he])) (fun e he => hy e (by simp [he]))
        (head?_of_concat firstX) (head?_of_concat firstY) rest]

theorem ofDigitChars_eq_iff {xs ys : List Char} (hx : ∀ c ∈ xs, c.isDigit = true)
    (hy : ∀ c ∈ ys, c.isDigit = true) :
    ofDigitChars 10 xs 0 = ofDigitChars 10 ys 0 ↔ significant xs = significant ys := by
  constructor
  · intro same
    exact eq_of_ofDigitChars_eq (isDigit_of_mem_significant hx) (isDigit_of_mem_significant hy)
      (head?_significant xs) (head?_significant ys)
      (by rw [ofDigitChars_significant, ofDigitChars_significant, same])
  · intro same
    rw [← ofDigitChars_significant xs, same, ofDigitChars_significant]

theorem digits?_eq_some {cs : List Char} {n : Nat} (read : digits? cs = some n) :
    (∀ c ∈ cs, c.isDigit = true) ∧ n = ofDigitChars 10 cs 0 := by
  unfold digits? at read
  split at read
  · cases read
  · next digits =>
    simp only [Bool.or_eq_true, Bool.not_eq_true', not_or, Bool.not_eq_false,
      List.all_eq_true] at digits
    exact ⟨digits.2, (Option.some.inj read).symm⟩

theorem letter_of_ofLetter? {c : Char} {category : Category}
    (read : Category.ofLetter? c = some category) : c = category.letter := by
  unfold Category.ofLetter? at read
  split at read <;> cases read <;> rfl

/-- A text that names a code is the letter of its category and digits for its number. -/
theorem ofString?_eq_some {text : String} {c : Code} (read : ofString? text = some c) :
    ∃ digits, text.toList = c.category.letter :: digits ∧
      (∀ d ∈ digits, d.isDigit = true) ∧ c.number = ofDigitChars 10 digits 0 := by
  unfold ofString? at read
  split at read
  · cases read
  · next first rest chars =>
    split at read
    · next category n letter count =>
      split at read
      · cases read
        obtain ⟨digits, value⟩ := digits?_eq_some count
        exact ⟨rest, by rw [chars, letter_of_ofLetter? letter], digits, value⟩
      · cases read
    · cases read

theorem eq_iff_respells {a b : String} {c d : Code} (ha : ofString? a = some c)
    (hb : ofString? b = some d) : c = d ↔ Respells a b := by
  obtain ⟨xs, charsA, digitsA, numberA⟩ := ofString?_eq_some ha
  obtain ⟨ys, charsB, digitsB, numberB⟩ := ofString?_eq_some hb
  have letters : c.category.letter = d.category.letter ↔ c.category = d.category := by
    cases c.category <;> cases d.category <;> decide
  have spelled : Respells a b ↔ c.category = d.category ∧ c.number = d.number := by
    rw [Respells, charsA, charsB, numberA, numberB, ofDigitChars_eq_iff digitsA digitsB, ← letters]
    simp
  rw [spelled]
  cases c
  cases d
  simp

end Code

namespace Config

/-- The codes are read one by one, in order. -/
theorem map_ofString?_of_codes {setting : String} {texts : List String} {cs : List Code}
    (read : codes setting texts = .ok cs) : texts.map Code.ofString? = cs.map some := by
  rw [← List.forall₂_eq_eq_eq, List.forall₂_map_left_iff, List.forall₂_map_right_iff]
  refine (mapM_ok_iff.mp read).imp fun t c one => ?_
  split at one
  · next code found =>
    cases one
    exact found
  · cases one

theorem mem_iff_of_map_ofString? {texts : List String} {cs : List Code}
    (read : texts.map Code.ofString? = cs.map some) {c : Code} :
    c ∈ cs ↔ ∃ t ∈ texts, Code.ofString? t = some c := by
  rw [← List.mem_map, read]
  simp

theorem policy_eq_ok {l : Lints} {policy : Lint.Policy} (h : l.policy = .ok policy) :
    l.deny.map Code.ofString? = policy.deny.map some ∧
      l.allow.map Code.ofString? = policy.allow.map some := by
  obtain ⟨deny, denied, h⟩ := bind_eq_ok.mp h
  obtain ⟨allow, allowed, h⟩ := bind_eq_ok.mp h
  cases h
  exact ⟨map_ofString?_of_codes denied, map_ofString?_of_codes allowed⟩

theorem passes_of_ok {p : Prop} [Decidable p] {problem : Problem} {k : Unit → Except Problem Unit}
    (h : (if p then throw problem >>= k else k ()) = .ok ()) : k () = .ok () := by
  split at h
  · cases h
  · exact h

/-- The codes of an accepted configuration can be read, and none is spelled in both lists. -/
theorem validate_eq_ok {c : Config} (valid : c.validate = .ok ()) :
    (∃ policy, c.lint.policy = .ok policy) ∧ ∀ t ∈ c.lint.allow, t ∉ c.lint.deny := by
  -- names and limits are checked before the codes
  unfold validate at valid
  have named := passes_of_ok valid
  have legal := passes_of_ok named
  have placed := passes_of_ok legal
  have checked := passes_of_ok placed
  obtain ⟨policy, read, checked⟩ := bind_eq_ok.mp checked
  refine ⟨⟨policy, read⟩, ?_⟩
  split at checked
  · cases checked
  · next apart =>
    intro t allowed denied
    exact absurd (List.find?_eq_none.mp apart t allowed) (by simpa using denied)

/-- A code is spelled in the list exactly if a text in it differs in leading zeros at most. -/
theorem mem_iff_respelled {texts : List String} {cs : List Code}
    (read : texts.map Code.ofString? = cs.map some) {t : String} {c : Code}
    (spelled : Code.ofString? t = some c) : c ∈ cs ↔ ∃ a ∈ texts, Code.Respells a t := by
  rw [mem_iff_of_map_ofString? read]
  constructor
  · rintro ⟨a, ha, same⟩
    exact ⟨a, ha, (Code.eq_iff_respells same spelled).mp rfl⟩
  · rintro ⟨a, ha, same⟩
    have listed : Code.ofString? a ∈ cs.map some := read ▸ List.mem_map_of_mem ha
    obtain ⟨d, -, named⟩ := List.mem_map.mp listed
    exact ⟨a, ha, by rw [← named, (Code.eq_iff_respells named.symm spelled).mpr same]⟩

/-- In an accepted configuration no text is both denied and allowed. The codes are kept apart
exactly if no denied text respells an allowed one, and an allowed warning is dropped unless it is
denied in another spelling. -/
theorem separated_iff_not_respelled (c : Config) (valid : c.validate = .ok ()) :
    ∃ policy, c.lint.policy = .ok policy ∧
      c.lint.deny.map Code.ofString? = policy.deny.map some ∧
      c.lint.allow.map Code.ofString? = policy.allow.map some ∧
      c.lint.deny.Disjoint c.lint.allow ∧
      (policy.deny.Disjoint policy.allow ↔
        ∀ a ∈ c.lint.deny, ∀ t ∈ c.lint.allow, ¬ Code.Respells a t) ∧
      ∀ t ∈ c.lint.allow, ∀ code, Code.ofString? t = some code → code.category = .warning →
        policy.action code = if ∃ a ∈ c.lint.deny, Code.Respells a t then .deny else .allow := by
  obtain ⟨⟨policy, read⟩, apart⟩ := validate_eq_ok valid
  obtain ⟨denied, allowed⟩ := policy_eq_ok read
  refine ⟨policy, read, denied, allowed, fun t hd ha => apart t ha hd, ?_, ?_⟩
  · constructor
    · intro separate a ha t ht same
      obtain ⟨code, listed, spelled⟩ := List.mem_map.mp (allowed ▸ List.mem_map_of_mem ht)
      exact separate ((mem_iff_respelled denied spelled.symm).mpr ⟨a, ha, same⟩) listed
    · intro unlike code hd ha
      obtain ⟨t, ht, spelled⟩ := (mem_iff_of_map_ofString? allowed).mp ha
      obtain ⟨a, ha, same⟩ := (mem_iff_respelled denied spelled).mp hd
      exact unlike a ha t ht same
  · intro t ht code spelled warning
    have listed : code ∈ policy.allow :=
      (mem_iff_of_map_ofString? allowed).mpr ⟨t, ht, spelled⟩
    simp only [Lint.Policy.action, warning, listed, mem_iff_respelled denied spelled]
    simp

/-- Codes that differ in more than leading zeros, an error among the allowed ones. -/
theorem separated_w0304_e7 :
    let lint : Lints := { deny := ["W0304", "W12"], allow := ["W301", "E7", "W30"] }
    ({ lint } : Config).validate = .ok () ∧
    ∃ policy, lint.policy = .ok policy ∧ policy.deny.Disjoint policy.allow ∧
      policy.action ⟨.warning, 30⟩ = .allow := by
  intro lint
  have valid : ({ lint } : Config).validate = .ok () := by decide +kernel
  obtain ⟨policy, read, -, -, -, separate, action⟩ :=
    separated_iff_not_respelled { lint } valid
  refine ⟨valid, policy, read, separate.mpr (by decide +kernel), ?_⟩
  rw [action "W30" (by decide) ⟨.warning, 30⟩ (by decide +kernel) rfl]
  decide +kernel

/-- An accepted configuration that allows a warning and denies it in another spelling. -/
theorem allowed_w0304_denied :
    let lint : Lints := { deny := ["W304"], allow := ["W0304"] }
    ({ lint } : Config).validate = .ok () ∧ Code.ofString? "W0304" = some ⟨.warning, 304⟩ ∧
    ∃ policy, lint.policy = .ok policy ∧ ¬ policy.deny.Disjoint policy.allow ∧
      policy.action ⟨.warning, 304⟩ = .deny := by
  refine ⟨by decide +kernel, by decide +kernel,
    { deny := [⟨.warning, 304⟩], allow := [⟨.warning, 304⟩] }, by decide +kernel, ?_, by decide⟩
  simp [List.Disjoint]

end Config

end Gateware
