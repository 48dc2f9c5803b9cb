/-!
# Paths

A path is a text with slashes between its parts. An empty part or a single dot says nothing, unless
it is the first: then it stands for the top directory or for the one that the path starts from.
-/
namespace Gateware.Path

def parts (path : String) : List String := path.splitOn "/"

/-- Whether a part other than the first says nothing. -/
def idle (part : String) : Bool := part = "" || part = "."

/-- Drop the parts at the end that say nothing. -/
def trimmed : List String → List String
  | [] => []
  | first :: rest => first :: (rest.reverse.dropWhile idle).reverse

def text : List String → String
  | [""] => "/"
  | ps => "/".intercalate ps

/-- The path without its last part that says something; none if there is no such part. -/
def parent? (path : String) : Option String :=
  match trimmed (parts path) with
  | [] => none
  | [first] => if first = "" then none else some ""
  | ps => some (text (trimmed ps.dropLast))

/-- A path, its parent, that one's parent and so on, at most `limit` of them. -/
def ancestors (path : String) : (limit : Nat) → List String
  | 0 => []
  | limit + 1 =>
    path :: match parent? path with
      | some p => ancestors p limit
      | none => []

/-- A path and all of its ancestors. Each has fewer parts than the one before. -/
def lineage (path : String) : List String := ancestors path ((parts path).length + 1)

/-- The path of a file in a directory. -/
def join (directory file : String) : String :=
  if directory.isEmpty || directory.endsWith "/" then directory ++ file else s!"{directory}/{file}"

/-- The most bytes that a name in a directory can have. -/
def longestName : Nat := 255

/-- The number of bytes from which on a path is too long. -/
def tooLong : Nat := 4096

end Gateware.Path
