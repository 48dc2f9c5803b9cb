/-!
# Layout

Text laid out line by line under a current indentation, which stays between 0 and 255.
-/
namespace Gateware.Verilog

/-- A piece of layout. -/
inductive Layout
  | indent
  | outdent
  /-- The current indentation. -/
  | margin
  | text (s : String)
  | newline
  /-- A text on a line of its own. -/
  | line (s : String)
deriving DecidableEq, Repr

namespace Layout

def deepest : Nat := 255

/-- What a piece writes and the indentation after it. -/
def step (level : Nat) : Layout → String × Nat
  | indent => ("", min (level + 1) deepest)
  | outdent => ("", level - 1)
  | margin => ("".pushn '\t' level, level)
  | text s => (s, level)
  | newline => ("\n", level)
  | line s => ("".pushn '\t' level ++ s ++ "\n", level)

/-- The text of pieces laid out from the left margin. -/
def render (pieces : List Layout) : String :=
  (pieces.foldl (fun (out, level) p =>
    let (s, level) := step level p
    (out ++ s, level)) ("", 0)).1

/-- Indented pieces between two lines. -/
def block (head : String) (body : List Layout) (tail : String) : List Layout :=
  [line head, indent] ++ body ++ [outdent, line tail]

/-- Lines with a comma behind all but the last. -/
def commas : List String → List Layout
  | [] => []
  | [s] => [line s]
  | s :: ss => line (s ++ ",") :: commas ss

end Layout

end Gateware.Verilog
