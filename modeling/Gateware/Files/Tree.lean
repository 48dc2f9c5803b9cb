import Gateware.Files.Path

/-!
# Directory trees

Files and directories in memory, and what reading and writing them gives or is refused for. Paths
start from the top of the tree. What lies outside of it is not known: nothing can be read there, and
what is written there leaves no trace.
-/
namespace Gateware

/-- Why a file operation is refused. -/
inductive FileFault
  | missing
  | taken
  | notDirectory
  | isDirectory
  | nameTooLong
deriving DecidableEq, Repr

def FileFault.message : FileFault → String
  | missing => "No such file or directory (os error 2)"
  | taken => "File exists (os error 17)"
  | notDirectory => "Not a directory (os error 20)"
  | isDirectory => "Is a directory (os error 21)"
  | nameTooLong => "File name too long (os error 36)"

/-- The parts from the top of the tree down to a file or directory. -/
abbrev Place := List String

/-- Files with their contents, and directories besides those that hold them. -/
structure FileTree where
  files : List (Place × String) := []
  made : List Place := []
deriving DecidableEq, Repr

namespace FileTree

def file? (t : FileTree) (p : Place) : Option String := t.files.lookup p

/-- Whether a place is the top, was made as a directory, or has a file below it. -/
def hasDirectory (t : FileTree) (p : Place) : Bool :=
  p.isEmpty || p ∈ t.made || t.files.any fun f => p.isPrefixOf f.1 && p ≠ f.1

/-- Set the contents of a file. -/
def put (t : FileTree) (p : Place) (text : String) : FileTree :=
  { t with files := t.files.filter (·.1 ≠ p) ++ [(p, text)] }

/-- Go from a directory, or from outside the tree, to the directory that a part leads to. -/
def enter (t : FileTree) : Option Place → String → Except FileFault (Option Place)
  | none, _ => .ok none
  | some p, part =>
    if Path.idle part then .ok (some p)
    else if part = ".." then .ok (if p.isEmpty then none else some p.dropLast)
    else if Path.longestName < part.utf8ByteSize then .error .nameTooLong
    else if t.hasDirectory (p ++ [part]) then .ok (some (p ++ [part]))
    else if (t.file? (p ++ [part])).isSome then .error .notDirectory
    else .error .missing

/-- Where a path leads: the directory that its last part stands in, and the last part. -/
structure Target where
  directory : Option Place
  last : Option String

/-- Follow a path up to its last part. -/
def follow (t : FileTree) (path : String) : Except FileFault Target := do
  if path.isEmpty then throw .missing
  if Path.tooLong ≤ path.utf8ByteSize then throw .nameTooLong
  let parts := (Path.parts path).filter (· ≠ "")
  let start := if path.startsWith "/" then none else some []
  let directory ← parts.dropLast.foldlM (enter t) start
  return { directory, last := parts.getLast? }

/-- Whether a last part can be the name of a file. -/
def isName (part : String) : Bool := part ≠ "." && part ≠ ".."

/-- The contents of a file. -/
def read (t : FileTree) (path : String) : Except FileFault String := do
  let target ← t.follow path
  match target.directory, target.last with
  | _, none => throw .isDirectory
  | none, _ => throw .missing
  | some p, some name =>
    if !isName name || t.hasDirectory (p ++ [name]) then throw .isDirectory
    if Path.longestName < name.utf8ByteSize then throw .nameTooLong
    match t.file? (p ++ [name]) with
    | some text => if path.endsWith "/" then throw .notDirectory else return text
    | none => throw .missing

/-- Give a file new contents, creating it if need be. A slash at the end asks for a directory. -/
def write (t : FileTree) (path text : String) : Except FileFault FileTree := do
  let target ← t.follow path
  match target.last with
  | none => throw .isDirectory
  | some name =>
    if !isName name || path.endsWith "/" then throw .isDirectory
    match target.directory with
    | none => return t
    | some p =>
      if Path.longestName < name.utf8ByteSize then throw .nameTooLong
      if t.hasDirectory (p ++ [name]) then throw .isDirectory
      return t.put (p ++ [name]) text

/-- Make a directory in one that is there. -/
def makeDirectory (t : FileTree) (path : String) : Except FileFault FileTree := do
  let target ← t.follow path
  match target.last with
  | none => throw .taken
  | some name =>
    if !isName name then throw .taken
    match target.directory with
    | none => return t
    | some p =>
      if Path.longestName < name.utf8ByteSize then throw .nameTooLong
      let place := p ++ [name]
      if t.hasDirectory place || (t.file? place).isSome then throw .taken
      return { t with made := t.made ++ [place] }

/-- Whether a path leads to a directory. -/
def isDirectory (t : FileTree) (path : String) : Bool :=
  match t.follow path with
  | .ok target => ((target.last.toList.foldlM (enter t) target.directory).toOption).isSome
  | .error _ => false

/-- Make a directory unless it is there. -/
def assureDirectory (t : FileTree) (path : String) : Except FileFault FileTree :=
  match t.makeDirectory path with
  | .error .taken => if t.isDirectory path then .ok t else .error .taken
  | result => result

/-- Make the first of several directories, given with its ancestors; those that are missing are made
before it. -/
def makeLineage (t : FileTree) : List String → Except FileFault FileTree
  | [] => .error .missing
  | path :: above =>
    if path.isEmpty then .ok t
    else
      match t.assureDirectory path with
      | .error .missing => do
        let t ← t.makeLineage above
        t.assureDirectory path
      | result => result

/-- Make a directory and those above it. -/
def makeDirectories (t : FileTree) (path : String) : Except FileFault FileTree :=
  t.makeLineage (Path.lineage path)

/-- The tree of files given by their paths. -/
def ofList (files : List (String × String)) : FileTree :=
  { files := files.map fun f => ((Path.parts f.1).filter (!Path.idle ·), f.2) }

/-- The files by their paths. -/
def toList (t : FileTree) : List (String × String) :=
  t.files.map fun f => (Path.text f.1, f.2)

end FileTree

end Gateware
