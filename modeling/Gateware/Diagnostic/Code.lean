/-!
# Diagnostic codes

A code is a category and a number, written as a letter and at least three digits: `E206`, `W304`.
-/
namespace Gateware

inductive Category
  | error
  | warning
deriving DecidableEq, Repr

namespace Category

/-- The letter that codes of the category start with. -/
def letter : Category → Char
  | .error => 'E'
  | .warning => 'W'

def ofLetter? : Char → Option Category
  | 'E' => some .error
  | 'W' => some .warning
  | _ => none

def name : Category → String
  | .error => "Error"
  | .warning => "Warning"

end Category

/-- A category and a number below 65536. -/
structure Code where
  category : Category
  number : Nat
deriving DecidableEq, Repr

namespace Code

/-- The number that a run of decimal digits denotes, if there is one. -/
def digits? (cs : List Char) : Option Nat :=
  if cs.isEmpty || !cs.all Char.isDigit then none
  else some (cs.foldl (fun n c => 10 * n + (c.toNat - '0'.toNat)) 0)

/-- Read a letter followed by digits; leading zeros do not matter. -/
def ofString? (text : String) : Option Code :=
  match text.toList with
  | [] => none
  | c :: rest =>
    match Category.ofLetter? c, digits? rest with
    | some category, some number => if number < 65536 then some ⟨category, number⟩ else none
    | _, _ => none

/-- What is said of a text that is no code. -/
def invalidText (text : String) : String :=
  s!"invalid diagnostic code `{text}` (expected a letter E or W followed by digits)"

/-- A decimal number with zeros in front up to `width` digits. -/
def padded (width n : Nat) : String :=
  let digits := toString n
  "".pushn '0' (width - digits.length) ++ digits

def text (c : Code) : String := c.category.letter.toString ++ padded 3 c.number

end Code

end Gateware
