import Gateware.Proofs.Bits
import Gateware.Proofs.Verilog.Identifiers
import Gateware.Simulation.Memory
import Gateware.Verilog.Cell
import Mathlib.Data.List.Infix

/-!
# What a memory starts with

The first words of a memory are written into the source one by one, or into a file that the source
loads. Here both are read back as the words they assign, each with its index.

## Main results

* `imageWords_imageText`: an image holds every word of its memory
* `inline_assigns_image_iff`: written into the source, the words up to the last one given are
  assigned, so that both ways agree exactly if a word is given for every index

## Proof strategy

Each piece of text is read back by the lemma of its reader, in front of any text that cannot go on
with the piece. A line that assigns a word has a digit before its semicolon and so never loads a
file.
-/
namespace Gateware.Verilog

open Nat (ofDigitChars)

/-- A decimal number in front of a text, and the rest of the text. -/
def natural? (cs : List Char) : Option (Nat × List Char) :=
  let digits := cs.takeWhile Char.isDigit
  if digits = [] then none else some (ofDigitChars 10 digits 0, cs.dropWhile Char.isDigit)

/-- The index and the word of a line that assigns a word of the memory called `name`. The word is
cut to the size it is written with. -/
def assignment? (name line : String) : Option (Nat × Nat) := do
  let cs ← (name ++ "[").toList.isPrefixOf? line.toList
  let (index, cs) ← natural? cs
  let cs ← "] = ".toList.isPrefixOf? cs
  let (size, cs) ← natural? cs
  let cs ← "'d".toList.isPrefixOf? cs
  let (word, cs) ← natural? cs
  if cs = [';'] then some (index, toBits word size) else none

def hexDigit? (c : Char) : Option Nat :=
  if c.isDigit then some (c.toNat - '0'.toNat)
  else if 'a' ≤ c ∧ c ≤ 'f' then some (c.toNat - 'a'.toNat + 10)
  else none

/-- The words of an image, one hexadecimal number to a line; `pending` is what the current line
has come to so far. -/
def imageWords (pending : Option Nat) : List Char → Option (List Nat)
  | [] => some pending.toList
  | c :: cs =>
    if c = '\n' then (pending.toList ++ ·) <$> imageWords none cs
    else do imageWords (some (16 * pending.getD 0 + (← hexDigit? c))) cs

/-- The words that a line of an initial block assigns, with their indices. A file that was written
twice holds what was written last. -/
def lineWords (files : List DataFile) (name line : String) : List (Nat × Nat) :=
  match files.reverse.find? fun f => line = s!"$readmemh(\"{f.name}\", {name});" with
  | some f => ((imageWords none f.contents.toList).getD []).zipIdx.map Prod.swap
  | none => (assignment? name line).toList

/-- The words that an initial block assigns, in the order of its lines. -/
def initialWords (files : List DataFile) (name : String) (pieces : List Layout) :
    List (Nat × Nat) :=
  pieces.flatMap fun piece =>
    match piece with
    | .line s => lineWords files name s
    | _ => []

section Reading

theorem natural?_toString (n : Nat) {rest : List Char} (ends : rest.head?.all (!·.isDigit) = true) :
    natural? ((toString n).toList ++ rest) = some (n, rest) := by
  have digits : ∀ c ∈ (toString n).toList, c.isDigit = true := fun c => isDigit_of_mem_toString
  have stop : rest.takeWhile Char.isDigit = [] ∧ rest.dropWhile Char.isDigit = rest := by
    cases rest with
    | nil => simp
    | cons c rest => simp_all
  have value : ofDigitChars 10 (toString n).toList 0 = n := by
    rw [Nat.toString_eq_ofList_toDigits, String.toList_ofList]
    exact Nat.ofDigitChars_toDigits (by decide) (by decide)
  rw [natural?, List.takeWhile_append_of_pos digits, List.dropWhile_append_of_pos digits, stop.1,
    stop.2, List.append_nil, value]
  simp

theorem isPrefixOf?_append (start rest : List Char) :
    start.isPrefixOf? (start ++ rest) = some rest :=
  List.isPrefixOf?_eq_some_iff_append_eq.mpr rfl

/-- A written assignment is read back. -/
theorem assignment?_line (name : String) (index size word : Nat) :
    assignment? name s!"{name}[{index}] = {size}'d{word};" = some (index, toBits word size) := by
  have same (s : String) : toString s = s := rfl
  have chars : (s!"{name}[{index}] = {size}'d{word};").toList =
      (name ++ "[").toList ++ ((toString index).toList ++
        ("] = ".toList ++ ((toString size).toList ++
          ("'d".toList ++ ((toString word).toList ++ ";".toList))))) := by
    simp only [same, String.toList_append, List.append_assoc]
  have third : natural? ((toString word).toList ++ ";".toList) = some (word, ";".toList) :=
    natural?_toString word rfl
  have second : natural? ((toString size).toList ++ ("'d".toList ++ ((toString word).toList ++
      ";".toList))) = some (size, "'d".toList ++ ((toString word).toList ++ ";".toList)) :=
    natural?_toString size rfl
  rw [assignment?, chars, isPrefixOf?_append, Option.bind_eq_bind, Option.bind_some,
    natural?_toString index rfl, Option.bind_eq_bind, Option.bind_some]
  simp only [isPrefixOf?_append, second, third, Option.bind_some]
  rfl

/-- A text without an opening bracket assigns nothing. -/
theorem assignment?_eq_none {name line : String} (plain : '[' ∉ line.toList) :
    assignment? name line = none := by
  have apart : (name ++ "[").toList.isPrefixOf? line.toList = none := by
    rw [Option.eq_none_iff_forall_ne_some]
    intro rest split
    have chars := List.isPrefixOf?_eq_some_iff_append_eq.mp split
    exact plain (by simp [← chars])
  rw [assignment?, apart]
  rfl

/-- The number that hexadecimal digits go on to denote behind `n`. -/
def hexValue (n : Nat) (cs : List Char) : Nat :=
  cs.foldl (fun n c => 16 * n + (hexDigit? c).getD 0) n

theorem hexDigit?_digitChar : ∀ d < 16, hexDigit? (Nat.digitChar d) = some d := by decide

theorem hexValue_toDigits (n : Nat) : hexValue 0 (Nat.toDigits 16 n) = n := by
  induction n using Nat.strongRecOn with
  | ind n ih =>
    by_cases short : n < 16
    · rw [Nat.toDigits_of_lt_base short]
      simp [hexValue, hexDigit?_digitChar n short]
    · have front := ih (n / 16) (by omega)
      have last := hexDigit?_digitChar (n % 16) (by omega)
      rw [hexValue] at front
      rw [Nat.toDigits_of_base_le (by decide) (by omega), hexValue, List.foldl_append, front]
      simp [last]
      omega

theorem isSome_hexDigit?_of_mem_toDigits {n : Nat} {c : Char} (h : c ∈ Nat.toDigits 16 n) :
    (hexDigit? c).isSome = true := by
  induction n using Nat.strongRecOn with
  | ind n ih =>
    by_cases short : n < 16
    · rw [Nat.toDigits_of_lt_base short, List.mem_singleton] at h
      rw [h, hexDigit?_digitChar n short]
      rfl
    · rw [Nat.toDigits_of_base_le (by decide) (by omega), List.mem_append, List.mem_singleton] at h
      rcases h with front | rfl
      · exact ih (n / 16) (by omega) front
      · rw [hexDigit?_digitChar (n % 16) (by omega)]
        rfl

theorem toList_pushn (c : Char) (n : Nat) : ("".pushn c n).toList = List.replicate n c := by
  rw [String.pushn_eq_repeat_push]
  induction n with
  | zero => rfl
  | succ n ih => rw [Nat.repeat, String.toList_push, ih, List.replicate_succ']

theorem hexValue_zeros (n : Nat) (cs : List Char) :
    hexValue 0 (List.replicate n '0' ++ cs) = hexValue 0 cs := by
  induction n with
  | zero => rfl
  | succ n ih => exact ih

/-- A line of digits is read to its end. -/
theorem imageWords_digits {ds : List Char} (hex : ∀ c ∈ ds, (hexDigit? c).isSome = true)
    (some_digit : ds ≠ []) (pending : Option Nat) (rest : List Char) :
    imageWords pending (ds ++ '\n' :: rest) =
      (hexValue (pending.getD 0) ds :: ·) <$> imageWords none rest := by
  induction ds generalizing pending with
  | nil => exact absurd rfl some_digit
  | cons c ds ih =>
    obtain ⟨d, read⟩ := Option.isSome_iff_exists.mp (hex c (by simp))
    have inside : c ≠ '\n' := by
      rintro rfl
      rw [show hexDigit? '\n' = none from rfl] at read
      cases read
    have step : imageWords pending (c :: ds ++ '\n' :: rest) =
        imageWords (some (16 * pending.getD 0 + d)) (ds ++ '\n' :: rest) := by
      simp [imageWords, inside, read]
    have value : hexValue (pending.getD 0) (c :: ds) = hexValue (16 * pending.getD 0 + d) ds := by
      simp [hexValue, read]
    rw [step, value]
    by_cases last : ds = []
    · subst last
      simp [imageWords, hexValue]
    · exact ih (fun c hc => hex c (by simp [hc])) last _

/-- A word of an image is read back as its number. -/
theorem imageWords_hexWord (width word : Nat) (rest : List Char) :
    imageWords none ((hexWord width word).toList ++ '\n' :: rest) =
      (word :: ·) <$> imageWords none rest := by
  have chars : ∃ zeros, (hexWord width word).toList =
      List.replicate zeros '0' ++ Nat.toDigits 16 word :=
    ⟨_, by rw [hexWord, String.toList_append, toList_pushn, String.toList_ofList,
      Int.toNat_natCast]⟩
  obtain ⟨zeros, chars⟩ := chars
  have hex : ∀ c ∈ List.replicate zeros '0' ++ Nat.toDigits 16 word,
      (hexDigit? c).isSome = true := by
    intro c hc
    rcases List.mem_append.mp hc with zero | digit
    · rw [List.eq_of_mem_replicate zero]
      rfl
    · exact isSome_hexDigit?_of_mem_toDigits digit
  rw [chars, imageWords_digits hex (by simp [Nat.toDigits_ne_nil]), Option.getD_none,
    hexValue_zeros, hexValue_toDigits]

theorem imageWords_lines (width : Nat) (words : List Nat) :
    imageWords none (words.flatMap fun word : Nat => (hexWord width word).toList ++ ['\n']) =
      some words := by
  induction words with
  | nil => rfl
  | cons word words ih =>
    rw [List.flatMap_cons, List.append_assoc, List.singleton_append, imageWords_hexWord, ih]
    rfl

end Reading

section Contents

/-- What the first words give for an index, zero where they have ended. -/
def wordGiven (width : Nat) (init : List Int) (i : Nat) : Nat := toBits (init.getD i 0) width

variable {base : Memory} {init : List Int}

theorem init_withInit (fits : init.length ≤ base.depth) :
    (base.withInit init).init =
      (List.range init.length).map fun i => (wordGiven base.width init i : Int) := by
  rw [Memory.withInit, List.take_of_length_le fits]
  apply List.ext_getElem
  · simp
  · intro i inside _
    have bound : i < init.length := by simpa using inside
    simp [wordGiven, bound]
    rfl

theorem wordGiven_of_le {width i : Nat} (past : init.length ≤ i) : wordGiven width init i = 0 := by
  have zero : toBits 0 width = 0 := by simp [toBits_eq]
  rw [wordGiven, List.getD_eq_default _ _ past, zero]

theorem getD_withInit (fits : init.length ≤ base.depth) (i : Nat) :
    (base.withInit init).init.getD i 0 = wordGiven base.width init i := by
  rw [init_withInit fits]
  by_cases inside : i < init.length
  · simp [inside]
  · simp [wordGiven_of_le (Nat.le_of_not_lt inside), inside]

/-- An image holds every word of its memory. -/
theorem imageWords_imageText (fits : init.length ≤ base.depth) :
    imageWords none (imageText (base.withInit init)).toList =
      some ((List.range base.depth).map (wordGiven base.width init)) := by
  rw [imageText, String.toList_join, ← imageWords_lines base.width, List.flatMap_map,
    List.flatMap_map]
  simp only [getD_withInit fits, String.toList_append]
  rfl

/-- The simulation starts with the same words. -/
theorem words_initial (fits : init.length ≤ base.depth) :
    (MemoryState.initial (base.withInit init)).words.toList =
      (List.range base.depth).map (wordGiven base.width init) := by
  have depth : (base.withInit init).depth = base.depth := rfl
  apply List.ext_getElem
  · simp [MemoryState.initial, init_withInit fits, depth]
    omega
  · intro i _ _
    by_cases inside : i < init.length
    · simp [MemoryState.initial, init_withInit fits, inside]
    · simp [MemoryState.initial, init_withInit fits, List.getElem_append, inside,
        wordGiven_of_le (Nat.le_of_not_lt inside)]

theorem zipIdx_map_range {α : Type} (f : Nat → α) (n : Nat) :
    ((List.range n).map f).zipIdx = (List.range n).map fun i => (f i, i) := by
  apply List.ext_getElem <;> simp

end Contents

section Blocks

variable (files : List DataFile) (name : String)

/-- A line that assigns a word loads no file: its last number is not followed by a bracket. -/
theorem assignment_ne_load (index size word : Nat) (file : String) :
    s!"{name}[{index}] = {size}'d{word};" ≠ s!"$readmemh(\"{file}\", {name});" := by
  intro same
  have chars := congrArg String.toList same
  have split : (toString ");").toList = [')'] ++ (toString ";").toList := rfl
  rw [String.toList_append, String.toList_append (t := toString ");"), split, ← List.append_assoc]
    at chars
  have rest := List.append_cancel_right chars
  rw [String.toList_append] at rest
  have last := congrArg List.getLast? rest
  have number : (toString word).toList ≠ [] := by
    rw [Nat.toString_eq_ofList_toDigits, String.toList_ofList]
    exact Nat.toDigits_ne_nil
  rw [List.getLast?_append_of_ne_nil _ number, List.getLast?_concat] at last
  exact absurd (isDigit_of_mem_toString (List.mem_of_getLast? last)) (by decide)

theorem lineWords_assignment (index size word : Nat) :
    lineWords files name s!"{name}[{index}] = {size}'d{word};" = [(index, toBits word size)] := by
  have unloaded : files.reverse.find? (fun f =>
      s!"{name}[{index}] = {size}'d{word};" = s!"$readmemh(\"{f.name}\", {name});") = none :=
    List.find?_eq_none.mpr fun f _ => by simpa using assignment_ne_load name index size word f.name
  rw [lineWords, unloaded, assignment?_line]
  rfl

theorem lineWords_load (file contents : String) :
    lineWords (files ++ [⟨file, contents⟩]) name s!"$readmemh(\"{file}\", {name});" =
      ((imageWords none contents.toList).getD []).zipIdx.map Prod.swap := by
  simp [lineWords]

theorem lineWords_plain (line : String) (unassigned : '[' ∉ line.toList)
    (unloaded : '$' ∉ line.toList) : lineWords files name line = [] := by
  have none :
      files.reverse.find? (fun f => line = s!"$readmemh(\"{f.name}\", {name});") = none := by
    refine List.find?_eq_none.mpr fun f _ => ?_
    simp only [decide_eq_true_eq]
    rintro rfl
    have mark : '$' ∈ (toString "$readmemh(\"").toList := by decide
    exact unloaded (by simp [String.toList_append, mark])
  rw [lineWords, none, assignment?_eq_none unassigned]
  rfl

theorem initialWords_block (body : List Layout) :
    initialWords files name (Layout.block "initial begin" body "end") =
      initialWords files name body := by
  have first := lineWords_plain files name "initial begin" (by decide) (by decide)
  have last := lineWords_plain files name "end" (by decide) (by decide)
  simp [initialWords, Layout.block, first, last]

theorem initialWords_line (line : String) :
    initialWords files name [.line line] = lineWords files name line := by
  rw [initialWords, List.flatMap_singleton]

theorem initialWords_lines {α : Type} (items : List α) (text : α → String) :
    initialWords files name (items.map fun a => .line (text a)) =
      items.flatMap fun a => lineWords files name (text a) := by
  rw [initialWords, List.flatMap_map]

end Blocks

section Styles

variable {base : Memory} {init : List Int}

theorem init_withInit_ne_nil (given : init ≠ []) (fits : init.length ≤ base.depth) :
    (base.withInit init).init.isEmpty = false := by
  rw [init_withInit fits]
  simpa using given

/-- Written into the source, the words that are given are assigned and no others. -/
theorem words_inline (given : init ≠ []) (fits : init.length ≤ base.depth) (name : String)
    (p : Printer) :
    let written := (initText .inline (base.withInit init) name).run p
    initialWords written.2.files name written.1 =
      (List.range init.length).map fun i => (i, wordGiven base.width init i) := by
  have some_word := init_withInit_ne_nil given fits
  have text : (initText .inline (base.withInit init) name).run p =
      (Layout.block "initial begin" ((List.range init.length).map fun i => Layout.line
        s!"{name}[{i}] = {base.width}'d{wordGiven base.width init i};") "end", p) := by
    rw [initText, some_word, init_withInit fits, zipIdx_map_range, List.map_map]
    rfl
  intro written
  simp only [written, text, initialWords_block, initialWords_lines, lineWords_assignment]
  simp only [wordGiven, toBits_toBits, List.map_eq_flatMap]

/-- Loaded from a file, every word is assigned. -/
theorem words_file (given : init ≠ []) (fits : init.length ≤ base.depth) (name : String)
    (p : Printer) :
    let written := (initText .file (base.withInit init) name).run p
    initialWords written.2.files name written.1 =
      (List.range base.depth).map fun i => (i, wordGiven base.width init i) := by
  have some_word := init_withInit_ne_nil given fits
  let file := s!"{name}.init"
  have text : (initText .file (base.withInit init) name).run p =
      (Layout.block "initial begin" [.line s!"$readmemh(\"{file}\", {name});"] "end",
        { p with files := p.files ++ [⟨file, imageText (base.withInit init)⟩] }) := by
    rw [initText, some_word]
    rfl
  intro written
  simp only [written, text, initialWords_block, initialWords_line, lineWords_load,
    imageWords_imageText fits, Option.getD_some, zipIdx_map_range, List.map_map]
  rfl

/-- Both ways of writing out the first words of a memory: into the source, they are assigned up to
the last one given; in a file, they are followed by zeros up to the memory's depth, as in the
simulation. So both assign the same exactly if a word is given for every index. -/
theorem inline_assigns_image_iff (base : Memory) (init : List Int) (given : init ≠ [])
    (fits : init.length ≤ base.depth) (name : String) (p : Printer) :
    let m := base.withInit init
    let word := fun i => toBits (init.getD i 0) base.width
    let inline := (initText .inline m name).run p
    let file := (initText .file m name).run p
    initialWords inline.2.files name inline.1 =
      (List.range init.length).map (fun i => (i, word i)) ∧
    initialWords file.2.files name file.1 = (List.range base.depth).map (fun i => (i, word i)) ∧
    (MemoryState.initial m).words.toList = (List.range base.depth).map word ∧
    (initialWords inline.2.files name inline.1 = initialWords file.2.files name file.1 ↔
      init.length = base.depth) := by
  intro m word inline file
  have inlined := words_inline given fits name p
  have filed := words_file given fits name p
  refine ⟨inlined, filed, words_initial fits, ?_⟩
  rw [show initialWords inline.2.files name inline.1 = _ from inlined,
    show initialWords file.2.files name file.1 = _ from filed]
  constructor
  · intro same
    simpa using congrArg List.length same
  · intro same
    rw [same]

/-- A word for every index, the second one wider than the memory. -/
theorem rom_assigned_fully :
    let base : Memory := { name := "rom", width := 8, depth := 3 }
    let init : List Int := [7, 300, -1]
    let p : Printer := { names := ∅, used := ∅ }
    let inline := (initText .inline (base.withInit init) "rom").run p
    let file := (initText .file (base.withInit init) "rom").run p
    init ≠ [] ∧ init.length ≤ base.depth ∧
    initialWords inline.2.files "rom" inline.1 = [(0, 7), (1, 44), (2, 255)] ∧
    initialWords inline.2.files "rom" inline.1 = initialWords file.2.files "rom" file.1 := by
  intro base init p inline file
  have given : init ≠ [] := by simp [init]
  have fits : init.length ≤ base.depth := by decide
  obtain ⟨inlined, -, -, agree⟩ := inline_assigns_image_iff base init given fits "rom" p
  exact ⟨given, fits, inlined.trans (by decide), agree.mpr (by decide)⟩

/-- Two words of four: written into the source, the other two are left as they are. -/
theorem rom_assigned_partly :
    let base : Memory := { name := "rom", width := 8, depth := 4 }
    let p : Printer := { names := ∅, used := ∅ }
    let inline := (initText .inline (base.withInit [1, 2]) "rom").run p
    let file := (initText .file (base.withInit [1, 2]) "rom").run p
    initialWords inline.2.files "rom" inline.1 = [(0, 1), (1, 2)] ∧
    initialWords file.2.files "rom" file.1 = [(0, 1), (1, 2), (2, 0), (3, 0)] ∧
    (MemoryState.initial (base.withInit [1, 2])).words = #[1, 2, 0, 0] := by
  decide +kernel

end Styles

end Gateware.Verilog
