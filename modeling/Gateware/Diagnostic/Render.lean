import Gateware.Diagnostic.Basic
import Gateware.Text.Json

/-!
# Rendering diagnostics

As lines for a terminal, or as one JSON object a line.
-/
namespace Gateware.Diagnostic

/-- The lines shown on a terminal, with or without colour. -/
def toTerminal (color : Bool) (d : Diagnostic) : String :=
  let tag := s!"{d.severity.word}[{d.code.text}]"
  let head := if color then d.severity.color ++ tag ++ "\x1b[0m" else tag
  s!"{head}: {d.message}\n" ++
    (if d.origin.isUnknown then "" else s!"  --> {d.origin.text}\n") ++
    String.join (d.notes.map fun note => s!"   = note: {note}\n") ++
    String.join (d.help.map fun help => s!"   = help: {help}\n")

/-- One line of JSON. -/
def toJson (d : Diagnostic) : String :=
  Json.object
    [("severity", Json.string d.severity.name),
     ("code", Json.object
       [("category", Json.string d.code.category.name), ("number", toString d.code.number)]),
     ("message", Json.string d.message),
     ("origin", Json.object
       [("path", Json.array (d.origin.path.map Json.string)),
        ("item", Json.optional d.origin.item)]),
     ("notes", Json.array (d.notes.map Json.string)),
     ("help", Json.array (d.help.map Json.string))] ++ "\n"

def allToTerminal (color : Bool) (ds : List Diagnostic) : String :=
  String.join (ds.map (toTerminal color))

def allToJson (ds : List Diagnostic) : String := String.join (ds.map toJson)

end Gateware.Diagnostic
