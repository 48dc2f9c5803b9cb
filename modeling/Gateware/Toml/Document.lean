import Gateware.Toml.Scalar

/-!
# TOML documents
-/
namespace Gateware.Toml

open Reader

/-- The rest of a line from a number sign on. -/
def comment : Reader Unit := do
  char '#'
  let _ ← span isPlain

/-- The end of a line, after blanks and a comment. -/
def lineEnd : Reader Unit := do
  blanks
  let _ ← optional comment
  newline <|> eof

/-- Blanks, comments and line ends. -/
def gaps : Reader Unit := do
  let _ ← many ((do let _ ← one isBlank) <|> newline <|> (do comment; newline))

def isBare (c : Char) : Bool := c.isAlphanum || c = '-' || c = '_'

/-- One part of a key. -/
def keyPart : Reader String := do
  blanks
  let k ← shortString <|> (do
    let c ← one isBare
    return String.ofList (c :: (← span isBare)))
  blanks
  return k

/-- The number of levels that arrays and braces nest at most, and one more than the dots of a
key. -/
def nestingLimit : Nat := 79

/-- A key with its dots: the parts before the last, and the last. -/
def key : Reader (List String × String) := do
  let parts ← separated keyPart (char '.')
  match parts.getLast? with
  | some last => if parts.length ≤ nestingLimit then return (parts.dropLast, last) else failure
  | none => failure

/-- An array of values that `item` reads. -/
def array (item : Reader Value) : Reader Value := do
  char '['
  let items ← optional (separated (do gaps; let v ← item; gaps; return v) (char ','))
  if items.isSome then let _ ← optional (char ',')
  gaps
  char ']'
  return .array (items.getD [])

/-- A table in braces with values that `item` reads. -/
def braces (item : Reader Value) : Reader Value := do
  char '\x7b'
  let pairs ← optional (separated (do
    let k ← key
    char '='
    blanks
    let v ← item
    blanks
    return (k, v)) (char ','))
  blanks
  char '\x7d'
  let entries ← (pairs.getD []).foldlM (fun (es : Entries) ((path, k), v) =>
    es.assign true path k v .braces) []
  return .table .braces entries

/-- A value with at most `levels` levels of arrays and braces. -/
def value : (levels : Nat) → Reader Value
  | 0 => scalar
  | levels + 1 => array (value levels) <|> braces (value levels) <|> scalar

/-- What has been read: the document's entries, and the path of the last header. -/
structure Document where
  entries : Entries := []
  header : List String := []

namespace Document

/-- Put in what a line holds. -/
def pair (d : Document) : Reader Document := do
  let (path, k) ← key
  char '='
  blanks
  let v ← value nestingLimit
  lineEnd
  let entries ← Entries.change Form.admitsHeader .implied
    (fun form es => es.assign false path k v form) d.header .header d.entries
  return { d with entries }

/-- Open the table or tables that a header names. -/
def heading (d : Document) : Reader Document := do
  char '['
  let double ← skips (char '[')
  let (path, k) ← key
  char ']'
  if double then char ']'
  lineEnd
  let entries ← if double then d.entries.openNext path k else d.entries.openTable path k
  return { entries, header := path ++ [k] }

/-- One line, which may be empty. -/
def line (d : Document) : Reader Document := do
  blanks
  (do newline; return d) <|> (do comment; newline <|> eof; return d) <|> d.heading <|> d.pair

/-- At most `n` lines up to the end. -/
def lines : (n : Nat) → Document → Reader Document
  | 0, d => do eof; return d
  | n + 1, d => (do blanks; eof; return d) <|> (do lines n (← d.line))

end Document

/-- The table that a text spells; a byte order mark may come first. -/
def parse? (text : String) : Option Entries :=
  let cs := match text.toList with
    | '\ufeff' :: cs => cs
    | cs => cs
  ((Document.lines cs.length {}).run cs).map (·.1.entries)

end Gateware.Toml
