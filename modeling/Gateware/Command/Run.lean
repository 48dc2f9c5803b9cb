import Gateware.Command.Invocation
import Gateware.Config.Read
import Gateware.Conversion.Basic
import Gateware.Diagnostic.Render
import Gateware.Files.Tree
import Gateware.Lowering.Target

/-!
# Running a command

What a command prints and writes, from its command line and the configuration it reads.
-/
namespace Gateware.Command

/-- What a command does. Between the two texts for the standard error it makes a directory and
writes files in order. -/
structure Outcome where
  code : Nat
  stdout : String := ""
  stderr : String := ""
  directory : String := ""
  files : List (String × String) := []
  closing : String := ""

/-- The outcome of a command that cannot go on. -/
def Outcome.stopped (reason : String) : Outcome := { code := 1, stderr := s!"error: {reason}\n" }

/-- The name of the configuration's file. -/
def configFile : String := "kiln.toml"

/-- The file that a check reads. -/
def checkedFile (directory : Option String) : String := Path.join (directory.getD ".") configFile

/-- The file that the command reads, if any. -/
def Invocation.reads? (i : Invocation) : Option String :=
  match i.task with
  | .demo _ => i.settings.config.map (Path.join · configFile)
  | .checkConfig directory => some (checkedFile directory)

/-- The configuration in a file; `contents` is what reading it gave, or why it failed. -/
def loadConfig (contents : Except String String) : Except Config.Problem Config := do
  Config.ofString (← contents.mapError .unreadable)

/-- Put codes at the end of a list that are not in it. -/
def includeCodes (codes more : List String) : List String :=
  more.foldl (fun codes c => if codes.contains c then codes else codes ++ [c]) codes

/-- Lint settings with codes from the command line, which win over the configuration's. -/
def mergeLints (l : Config.Lints) (allow deny : List String) :
    Except Config.Problem Config.Lints := do
  let merged : Config.Lints :=
    { deny := includeCodes (l.deny.filter (!allow.contains ·)) deny
      allow := includeCodes (l.allow.filter (!deny.contains ·)) allow }
  let _ ← merged.policy
  return merged

/-- The configuration of a conversion. Without a file the module takes the design's name. -/
def demoConfig (o : DemoOptions) (file : Option (Except String String)) :
    Except Config.Problem Config := do
  let base ← match file with
    | some contents => loadConfig contents
    | none => .ok { codegen := { name := o.design.moduleName } }
  let lint ← mergeLints base.lint o.allow o.deny
  return { base with lint, codegen := { base.codegen with name := o.name.getD base.codegen.name } }

def Report.render (report : Report) (color : Bool) (ds : List Diagnostic) : String :=
  match report with
  | .text => Diagnostic.allToTerminal color ds
  | .json => Diagnostic.allToJson ds

/-- Deliver a conversion: the source to a file with the data files beside it, or to the standard
output. -/
def deliver (s : Settings) (o : DemoOptions) (color : Bool) (out : Conversion.Output) : Outcome :=
  let warnings := o.report.render color out.diagnostics
  let emitted :=
    if s.quiet || o.report ≠ .text then ""
    else s!"   Emitted `{out.module}` ({out.ports.length} port(s), " ++
      s!"{out.diagnostics.length} warning(s), hash {out.digest.text})\n"
  match o.output with
  | some path =>
    let wrote := if s.quiet then "" else s!"     Wrote {path}\n"
    let directory := (Path.parent? path).getD "."
    { code := 0, stderr := warnings, directory
      files := (path, out.source) :: out.files.map fun f => (Path.join directory f.name, f.contents)
      closing := wrote ++ emitted }
  | none =>
    let kept :=
      if s.quiet || out.files.isEmpty then ""
      else s!"warning: {out.files.length} data file(s) not written; pass -o to write them\n"
    { code := 0, stdout := out.source, stderr := warnings ++ kept ++ emitted }

/-- Convert a bundled design. -/
def runDemo (s : Settings) (o : DemoOptions) (color : Bool) (file : Option (Except String String)) :
    Outcome :=
  match demoConfig o file with
  | .error p => .stopped p.message
  | .ok config =>
    match Lowering.Table.ofTarget? o.target with
    | none => .stopped (Lowering.Table.unknownText o.target)
    | some table =>
      let conversion : ExceptT Verilog.Halt (StateM Supply) Conversion.Output := do
        let (m, ios) ← o.design.build.adapt Verilog.Halt.fault
        convert (.module m) ios table config
      match conversion.run.run {} with
      | (.ok out, _) => deliver s o color out
      | (.error (.fault f), _) => { code := 1, stderr := o.report.render color [f.toDiagnostic] }
      | (.error .overflow, _) => { code := 101, stderr := Verilog.Halt.overflowText ++ "\n" }

/-- Check a configuration. -/
def runCheck (s : Settings) (path : String) (contents : Except String String) : Outcome :=
  match loadConfig contents with
  | .error p => .stopped s!"{path}: {p.message}"
  | .ok c =>
    if s.quiet then { code := 0 }
    else
      { code := 0
        stderr := s!"    Checked {path}\n     Module `{c.codegen.name}`, " ++
          s!"default domain `{c.elaborate.defaultDomain}`, " ++
          s!"{c.lint.deny.length} denied, {c.lint.allow.length} allowed\n" }

def Coloring.inColor (terminal : Bool) : Coloring → Bool
  | auto => terminal
  | always => true
  | never => false

/-- Run a command. `contents` is what reading its file gave, if it reads one; `terminal` says
whether colors can be shown. -/
def Invocation.run (i : Invocation) (terminal : Bool) (contents : Except String String) : Outcome :=
  match i.task with
  | .demo o =>
    runDemo i.settings o (i.settings.color.inColor terminal) (i.reads?.map fun _ => contents)
  | .checkConfig directory => runCheck i.settings (checkedFile directory) contents

/-- What is left of a command that was carried out on a tree of files. -/
structure Trace where
  code : Nat
  stdout : String
  stderr : String
  tree : FileTree

/-- Write files in order up to the first that is refused. -/
def writeFiles (t : FileTree) : List (String × String) → Option FileFault × FileTree
  | [] => (none, t)
  | (path, text) :: more =>
    match t.write path text with
    | .ok t => writeFiles t more
    | .error f => (some f, t)

/-- Carry out what a command does on a tree of files. -/
def Outcome.carryOut (o : Outcome) (t : FileTree) : Trace :=
  let (refusal, t) :=
    if o.directory.isEmpty then writeFiles t o.files
    else
      match t.makeDirectories o.directory with
      | .ok t => writeFiles t o.files
      | .error f => (some f, t)
  match refusal with
  | none => { code := o.code, stdout := o.stdout, stderr := o.stderr ++ o.closing, tree := t }
  | some f => { code := 1, stdout := "", stderr := s!"{o.stderr}error: {f.message}\n", tree := t }

/-- Run a command on a tree of files, with its output going nowhere near a terminal. -/
def Invocation.runOn (i : Invocation) (t : FileTree) : Trace :=
  let contents := match i.reads? with
    | some path => (t.read path).mapError FileFault.message
    | none => .ok ""
  (i.run false contents).carryOut t

end Gateware.Command
