import Gateware.Signal

/-!
# Identifiers

Every signal, instance and temporary of a module has a name of its own: a legal identifier made from
a hint, with a number behind it when the plain one is taken. Who asks first gets the plain one.
-/
namespace Gateware.Verilog

def keywords : List String :=
  ["always", "and", "assign", "automatic", "begin", "buf", "bufif0", "bufif1", "case", "casex",
   "casez", "cell", "cmos", "config", "deassign", "default", "defparam", "design", "disable",
   "edge", "else", "end", "endcase", "endconfig", "endfunction", "endgenerate", "endmodule",
   "endprimitive", "endspecify", "endtable", "endtask", "event", "for", "force", "forever", "fork",
   "function", "generate", "genvar", "highz0", "highz1", "if", "ifnone", "initial", "inout",
   "input", "instance", "integer", "join", "large", "liblist", "library", "localparam",
   "macromodule", "medium", "module", "nand", "negedge", "nmos", "nor", "not", "notif0", "notif1",
   "or", "output", "parameter", "pmos", "posedge", "primitive", "pull0", "pull1", "pulldown",
   "pullup", "rcmos", "real", "realtime", "reg", "release", "repeat", "rnmos", "rpmos", "rtran",
   "rtranif0", "rtranif1", "scalared", "signed", "small", "specify", "specparam", "strong0",
   "strong1", "supply0", "supply1", "table", "task", "time", "tran", "tranif0", "tranif1", "tri",
   "tri0", "tri1", "triand", "trior", "trireg", "unsigned", "use", "vectored", "wait", "wand",
   "weak0", "weak1", "while", "wire", "wor", "xnor", "xor"]

def isKeyword (word : String) : Bool := keywords.contains word

/-- A legal identifier close to a hint: other characters become underscores, and one is added before
a digit, for an empty hint and behind a keyword. -/
def legalize (hint : String) : String :=
  let cs := hint.toList.map fun c => if c.isAlphanum || c = '_' then c else '_'
  let cs :=
    match cs with
    | [] => ['_']
    | c :: _ => if c.isDigit then '_' :: cs else cs
  let name := String.ofList cs
  if isKeyword name then name ++ "_" else name

/-- The names taken in a module. -/
abbrev Scope := OrdSet String

namespace Scope

/-- The first of `base_1`, `base_2`, … that is free; among one more than are taken there is one. -/
def numbered (used : Scope) (base : String) : String :=
  let candidate := fun i : Nat => s!"{base}_{i + 1}"
  (((List.range (used.toList.length + 1)).find? (candidate · ∉ used)).map candidate).getD base

/-- The name that a hint leads to. -/
def free (used : Scope) (hint : String) : String :=
  let base := legalize hint
  if base ∈ used then used.numbered base else base

end Scope

/-- The names of signals. -/
abbrev Names := OrdMap Signal String

namespace Names

/-- The name of a signal, or what it is called in the design. -/
def name (names : Names) (s : Signal) : String := names.getD s s.name

/-- Name signals in order, each from its hint; one that is named already keeps its name. -/
def assign (used : Scope) (hints : List (Signal × String)) : Names × Scope :=
  hints.foldl (fun (names, used) (s, hint) =>
    if names.contains s then (names, used)
    else
      let name := used.free hint
      (names.insert s name, used.insert name)) (∅, used)

end Names

end Gateware.Verilog
