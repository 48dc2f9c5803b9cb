import Gateware.Command.Arguments
import Gateware.Command.Demo

/-!
# Invocations

What a command line asks for.
-/
namespace Gateware.Command

/-- When to write in color. -/
inductive Coloring
  /-- If there is a terminal. -/
  | auto
  | always
  | never
deriving DecidableEq, Repr

def Coloring.ofName? : String → Option Coloring
  | "auto" => some .auto
  | "always" => some .always
  | "never" => some .never
  | _ => none

/-- How warnings and faults are written. -/
inductive Report
  | text
  | json
deriving DecidableEq, Repr

def Report.ofName? : String → Option Report
  | "text" => some .text
  | "json" => some .json
  | _ => none

/-- Settings of every command. They are given before or after the command's name, where the later
place counts. -/
structure Settings where
  quiet : Bool
  color : Coloring
  /-- The directory of the configuration. -/
  config : Option String

structure DemoOptions where
  design : Demo
  /-- The file to write; without it the source goes to the standard output. -/
  output : Option String
  name : Option String
  target : String
  report : Report
  allow : List String
  deny : List String

inductive Task
  | demo (options : DemoOptions)
  | checkConfig (directory : Option String)

structure Invocation where
  settings : Settings
  task : Task

/-- The switches of every command. -/
def settingSwitches : List Switch :=
  [{ name := "quiet", letter := some 'q', takes := .none },
   { name := "verbose", letter := some 'v', takes := .none },
   { name := "color" }, { name := "config" }]

def outerGrammar : Grammar :=
  { switches := settingSwitches, commands := ["demo", "check-config"] }

def demoGrammar : Grammar :=
  { switches := settingSwitches ++
      [{ name := "output", letter := some 'o' }, { name := "name" },
       { name := "target", letter := some 't' }, { name := "format", letter := some 'f' },
       { name := "allow", takes := .several }, { name := "deny", takes := .several }]
    plain := 1 }

def checkConfigGrammar : Grammar := { switches := settingSwitches, plain := 1 }

/-- The settings found before and after the command's name. -/
def settings? (outer inner : Found) : Option Settings := do
  let early ← (outer.value? "color").mapM Coloring.ofName?
  let late ← (inner.value? "color").mapM Coloring.ofName?
  return { quiet := outer.has "quiet" || inner.has "quiet", color := (late <|> early).getD .auto
           config := inner.value? "config" <|> outer.value? "config" }

def demoOptions? (f : Found) : Option DemoOptions := do
  return { design := ← f.plain.head? >>= Demo.ofName?, output := f.value? "output"
           name := f.value? "name", target := (f.value? "target").getD "generic"
           report := (← (f.value? "format").mapM Report.ofName?).getD .text
           allow := f.values "allow", deny := f.values "deny" }

/-- Read a command line. -/
def Invocation.ofArgs? (args : List String) : Option Invocation := do
  let (outer, rest) ← scan outerGrammar .nothing {} args
  match rest with
  | "demo" :: rest => do
    let (inner, _) ← scan demoGrammar .nothing {} rest
    return { settings := ← settings? outer inner, task := .demo (← demoOptions? inner) }
  | "check-config" :: rest => do
    let (inner, _) ← scan checkConfigGrammar .nothing {} rest
    return { settings := ← settings? outer inner, task := .checkConfig inner.plain.head? }
  | _ => none

end Gateware.Command
