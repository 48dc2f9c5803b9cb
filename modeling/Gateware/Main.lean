import Gateware.Command.Run

/-!
# The command line
-/
namespace Gateware.Command

/-- What the system says of an error. -/
def systemText (e : IO.Error) : String :=
  match e with
  | .noFileOrDirectory .. => FileFault.missing.message
  | .alreadyExists .. => FileFault.taken.message
  | .inappropriateType _ code details => s!"{details} (os error {code})"
  | .invalidArgument _ code details => s!"{details} (os error {code})"
  | .resourceExhausted _ code details => s!"{details} (os error {code})"
  | .permissionDenied _ code details => s!"{details} (os error {code})"
  | e => e.toString

def usage : String :=
  "usage: kiln [-q] [-v] [--color WHEN] [--config DIR] demo DESIGN [-o FILE] [--name NAME]\n"
    ++ "            [-t TARGET] [-f FORMAT] [--allow CODE...] [--deny CODE...]\n"
    ++ "       kiln [-q] [-v] [--color WHEN] check-config [DIR]"

/-- Read a file, or say why that failed. -/
def readText (path : String) : IO (Except String String) := do
  try
    return .ok (← IO.FS.readFile path)
  catch e => return .error (systemText e)

/-- Carry out what a command does; the result is its exit code. -/
def perform (o : Outcome) : IO UInt32 := do
  IO.eprint o.stderr
  try
    unless o.directory.isEmpty do IO.FS.createDirAll o.directory
    o.files.forM fun (path, text) => IO.FS.writeFile path text
    IO.print o.stdout
    IO.eprint o.closing
    return o.code.toUInt32
  catch e =>
    IO.eprintln s!"error: {systemText e}"
    return 1

end Gateware.Command

def main (args : List String) : IO UInt32 := do
  match Gateware.Command.Invocation.ofArgs? args with
  | none =>
    IO.eprintln Gateware.Command.usage
    return 2
  | some i =>
    let contents ← match i.reads? with
      | some path => Gateware.Command.readText path
      | none => pure (.ok "")
    let terminal := (← IO.getEnv "TERM").any (· ≠ "dumb")
    Gateware.Command.perform (i.run terminal contents)
