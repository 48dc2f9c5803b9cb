import Gateware.Verilog.Printer

/-!
# Expressions

The target language sizes most operands by their context, while expressions here have a shape of
their own. Where signs differ, the unsigned side is cast; where the context would lose bits, the
subexpression moves to a temporary of its own width.
-/
namespace Gateware.Verilog

/-- A difference that wraps at its own width, which a wider context would not let it do. -/
def isWrappingSub : Expr → Bool
  | .binary .sub a b => !(Expr.binary .sub a b).shape.signed
  | _ => false

mutual
/-- Whether an expression that is sized by itself could lose bits. -/
def losesBits : Expr → Bool
  | .binary op a b =>
    match op with
    | .add | .sub | .mul | .shl => true
    | .and | .or | .xor => losesBits a || losesBits b
    | _ => false
  | .unary _ a => losesBits a
  | .mux _ cs => anyLosesBits cs
  | _ => false

def anyLosesBits : List Expr → Bool
  | [] => false
  | c :: cs => losesBits c || anyLosesBits cs
end

theorem anyLosesBits_eq (cs : List Expr) : anyLosesBits cs = (cs.map losesBits).any id := by
  induction cs with
  | nil => rfl
  | cons c cs ih => rw [anyLosesBits, ih, List.map_cons, List.any_cons, id]

/-- The temporary that stands for an expression with the given text; equal expressions share one. -/
def hoistAs (e : Expr) (text : Print String) : Print String := do
  match (← get).hoisted.lookup e with
  | some name => return name
  | none =>
    let text ← text
    let name ← claim "_tmp"
    modify fun p => { p with
      temps := p.temps ++ [⟨name, e.shape, text⟩], hoisted := (e, name) :: p.hoisted }
    return name

/-- An expression sized by its context. -/
def inContext (e : Expr) (text : Print String) : Print String :=
  if isWrappingSub e then hoistAs e text else text

/-- An expression sized by itself. -/
def byItself (e : Expr) (text : Print String) : Print String :=
  if losesBits e then hoistAs e text else inContext e text

/-- A non-negative value as a signed one, a bit wider. -/
def castText (text : String) : String := s!"$signed(\x7b1'd0, {text}\x7d)"

/-- An operand next to one of another signedness. -/
def side (e : Expr) (text : Print String) (cast alone : Bool) : Print String :=
  if cast then castText <$> byItself e text
  else if alone then byItself e text
  else inContext e text

/-- Both operands of an operation with signs aligned. -/
def aligned (a b : Expr) (ta tb : Print String) (alone : Bool) : Print (String × String) := do
  let l ← side a ta (b.shape.signed && !a.shape.signed) alone
  let r ← side b tb (a.shape.signed && !b.shape.signed) alone
  return (l, r)

/-- The bits of something named, from the highest one down. -/
def selectText (base : String) (width start stop : Nat) : Print String := do
  if width = 1 then return base
  watch (stop < start)
  if stop - start = 1 then return s!"{base}[{start}]"
  watch (stop = 0)
  return s!"{base}[{stop - 1}:{start}]"

def shiftSymbol (op : BinaryOp) (signed : Bool) : String :=
  match op, signed with
  | .shl, true => "<<<"
  | .shr, true => ">>>"
  | .shl, false => "<<"
  | _, _ => ">>"

/-- Inversion of an unsigned value is kept at the value's own width. -/
def unaryText (op : UnaryOp) (a : Expr) (text : Print String) : Print String := do
  match op, a.shape.signed with
  | .invert, true => return "(~" ++ (← inContext a text) ++ ")"
  | .invert, false => return "\x7b~" ++ (← byItself a text) ++ "\x7d"
  | .neg, true => return "(-" ++ (← inContext a text) ++ ")"
  | .neg, false => return "(-" ++ castText (← byItself a text) ++ ")"

def binaryText (op : BinaryOp) (a b : Expr) (ta tb : Print String) : Print String := do
  if op.isShift then
    let l ← byItself a ta
    let r ← byItself b tb
    return s!"({l} {shiftSymbol op a.shape.signed} {r})"
  else if op.isComparison then
    let (l, r) ← aligned a b ta tb true
    return s!"({l} {op.symbol} {r})"
  else if (op = .and || op = .or || op = .xor) && a.shape.signed != b.shape.signed then
    let (l, r) ← aligned a b ta tb true
    return s!"$unsigned({l} {op.symbol} {r})"
  else
    let (l, r) ← aligned a b ta tb false
    return s!"({l} {op.symbol} {r})"

/-- A chain of conditions on a selector, for the texts of all choices but the last. -/
def choiceText (selector : String) (width : Nat) (texts : List String) (last : String) : String :=
  texts.zipIdx.foldr (fun (text, i) rest =>
    s!"(({selector} == {max width (bitsFor i false)}'d{i}) ? {text} : {rest})") last

mutual
/-- The text of an expression. -/
def print : Expr → Print String
  | .literal c => pure (literalText c)
  | .signal s => nameOf s
  | .ref _ => pure "1'd0"
  | .unary op a => unaryText op a (print a)
  | .binary op a b => binaryText op a b (print a) (print b)
  | .slice a start stop => do
    let base ←
      match a with
      | .signal s => nameOf s
      | a => hoistAs a (print a)
    let text ← selectText base a.width start stop
    return if a.shape.signed then s!"$signed({text})" else text
  | .concat ps => do
    let texts ← printParts ps
    return "\x7b" ++ ", ".intercalate texts ++ "\x7d"
  | .replicate a n => do
    let text ← byItself a (print a)
    return "\x7b" ++ toString n ++ "\x7b" ++ text ++ "\x7d\x7d"
  | .mux s cs => do
    let texts ← printChoices (Expr.mux s cs).shape.signed cs
    match texts.getLast?, texts.dropLast with
    | none, _ => return "1'd0"
    | some last, [] => return last
    | some last, first :: more => do
      let selector ← byItself s (print s)
      if more.isEmpty ∧ s.width = 1 then return s!"({selector} ? {last} : {first})"
      else return choiceText selector s.width (first :: more) last

/-- The texts of parts, the highest one first. -/
def printParts : List Expr → Print (List String)
  | [] => pure []
  | p :: ps => do
    let rest ← printParts ps
    let text ← byItself p (print p)
    return rest ++ [text]

/-- The texts of choices; in a signed choice the unsigned ones are cast. -/
def printChoices (signed : Bool) : List Expr → Print (List String)
  | [] => pure []
  | c :: cs => do
    let text ← side c (print c) (signed && !c.shape.signed) false
    let rest ← printChoices signed cs
    return text :: rest
end

/-- The text of an expression that is sized by its context. -/
def contextual (e : Expr) : Print String := inContext e (print e)

/-- The text of an expression that is sized by itself. -/
def operand (e : Expr) : Print String := byItself e (print e)

/-- The text of an expression assigned to a target of a width. -/
def assigned (e : Expr) (width : Nat) : Print String :=
  if isWrappingSub e ∧ width ≤ e.width then print e else contextual e

mutual
/-- The text of a target in normal form. -/
def target : Expr → Print String
  | .signal s => nameOf s
  | .slice (.signal s) start stop => do
    let name ← nameOf s
    selectText name s.width start stop
  | .concat ps => do
    let texts ← targets ps
    return "\x7b" ++ ", ".intercalate texts ++ "\x7d"
  | e => contextual e

/-- The texts of targets, the highest one first. -/
def targets : List Expr → Print (List String)
  | [] => pure []
  | p :: ps => do
    let rest ← targets ps
    let text ← target p
    return rest ++ [text]
end

end Gateware.Verilog
