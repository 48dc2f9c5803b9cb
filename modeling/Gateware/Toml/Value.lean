/-!
# TOML values

The values of a TOML document, and how keys and headers put them into tables. A key is written once;
a table is opened by one header, unless a header further inside came first.
-/
namespace Gateware.Toml

/-- How a table came to be. -/
inductive Form
  /-- By a header of its own; the document itself counts as one. -/
  | header
  /-- By the header of a table inside it. -/
  | implied
  /-- By a key with dots, inside braces or not. -/
  | dotted (inBraces : Bool)
  /-- Written in braces. -/
  | braces
deriving DecidableEq, Repr

/-- Whether a table came from a key with dots. -/
def Form.isDotted : Form → Bool
  | dotted _ => true
  | _ => false

/-- Whether a key with dots may lead through a table. -/
def Form.admitsKey : Form → Bool
  | implied => true
  | dotted _ => true
  | _ => false

/-- Whether a header may lead through a table. -/
def Form.admitsHeader (f : Form) : Bool := f ≠ .braces

/-- A value. Fractions and dates are told apart from the rest but not kept: no setting is one. -/
inductive Value
  | string (s : String)
  | integer (i : Int)
  | boolean (b : Bool)
  | float
  | moment
  | array (items : List Value)
  | table (form : Form) (entries : List (String × Value))
  /-- Tables that share a header in double brackets. -/
  | tables (earlier : List (List (String × Value))) (last : List (String × Value))

/-- The keys of a table in order, each with its value. -/
abbrev Entries := List (String × Value)

namespace Entries

/-- Change the value of a key that is there. -/
def replace (k : String) (v : Value) (es : Entries) : Entries :=
  es.map fun e => if e.1 = k then (k, v) else e

/-- Change the table that `path` leads to. Tables missing on the way are made in the form `fresh`,
and the others have to be of a form that `admits` allows. -/
def change (admits : Form → Bool) (fresh : Form) (act : Form → Entries → Option Entries) :
    (path : List String) → Form → Entries → Option Entries
  | [], form, es => act form es
  | k :: ks, _, es =>
    match es.lookup k with
    | none => do
      let inner ← change admits fresh act ks fresh []
      return es ++ [(k, .table fresh inner)]
    | some (.table form inner) => do
      if !admits form then none
      let inner ← change admits fresh act ks form inner
      return es.replace k (.table form inner)
    | some (.tables earlier last) => do
      let last ← change admits fresh act ks .header last
      return es.replace k (.tables earlier last)
    | some _ => none

/-- Put in a value under a key with dots. The table it ends up in comes from such a key too, unless
there were no dots. -/
def assign (inBraces : Bool) (path : List String) (k : String) (v : Value) :
    Form → Entries → Option Entries :=
  change Form.admitsKey (.dotted inBraces) (fun form es =>
    if form.isDotted = path.isEmpty || (es.lookup k).isSome then none
    else some (es ++ [(k, v)])) path

/-- Open a table with a header. -/
def openTable (path : List String) (k : String) (es : Entries) : Option Entries :=
  change Form.admitsHeader .implied (fun _ es =>
    match es.lookup k with
    | none => some (es ++ [(k, .table .header [])])
    | some (.table .implied inner) => some (es.filter (·.1 ≠ k) ++ [(k, .table .header inner)])
    | some _ => none) path .header es

/-- Open one more of the tables of a header in double brackets. -/
def openNext (path : List String) (k : String) (es : Entries) : Option Entries :=
  change Form.admitsHeader .implied (fun _ es =>
    match es.lookup k with
    | none => some (es ++ [(k, .tables [] [])])
    | some (.tables earlier last) => some (es.replace k (.tables (earlier ++ [last]) []))
    | some _ => none) path .header es

end Entries

end Gateware.Toml
