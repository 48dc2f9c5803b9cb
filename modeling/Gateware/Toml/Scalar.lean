import Gateware.Toml.Value

/-!
# TOML strings, numbers and dates

Readers take the characters they read off the input, and fail without saying why.
-/
namespace Gateware.Toml

abbrev Reader := StateT (List Char) Option

namespace Reader

/-- The characters up to the first that `p` does not hold of. -/
def span (p : Char → Bool) : Reader (List Char) := fun cs => some (cs.takeWhile p, cs.dropWhile p)

/-- One character that `p` holds of. -/
def one (p : Char → Bool) : Reader Char
  | c :: cs => if p c then some (c, cs) else none
  | [] => none

def char (c : Char) : Reader Unit := do let _ ← one (· = c)

def text (s : String) : Reader Unit := s.toList.forM char

/-- Whether `r` can be read. -/
def skips {α : Type} (r : Reader α) : Reader Bool := return (← optional r).isSome

/-- As many as can be read one after the other, at most `n`. -/
def upTo {α : Type} (r : Reader α) : (n : Nat) → Reader (List α)
  | 0 => pure []
  | n + 1 => do
    match ← optional r with
    | some a => return a :: (← upTo r n)
    | none => pure []

/-- As many as can be read one after the other; each takes at least one character. -/
def many {α : Type} (r : Reader α) : Reader (List α) := do upTo r (← get).length

/-- One or more, with `sep` between them. -/
def separated {α : Type} (r : Reader α) (sep : Reader Unit) : Reader (List α) := do
  let first ← r
  return first :: (← many (do sep; r))

/-- The end of the input. -/
def eof : Reader Unit := fun cs => if cs.isEmpty then some ((), []) else none

def isBlank (c : Char) : Bool := c = ' ' || c = '\t'

def blanks : Reader Unit := do let _ ← span isBlank

def newline : Reader Unit
  | '\n' :: cs => some ((), cs)
  | '\r' :: '\n' :: cs => some ((), cs)
  | _ => none

end Reader

open Reader

/-- The characters that need no escape: tabs, and all but the control characters. -/
def isPlain (c : Char) : Bool := c = '\t' || (0x20 ≤ c.toNat && c.toNat ≠ 0x7f)

def hexDigit? (c : Char) : Option Nat :=
  if c.isDigit then some (c.toNat - '0'.toNat)
  else if 'a' ≤ c && c ≤ 'f' then some (c.toNat - 'a'.toNat + 10)
  else if 'A' ≤ c && c ≤ 'F' then some (c.toNat - 'A'.toNat + 10)
  else none

/-- The character with the code that hexadecimal digits spell. -/
def codePoint? (digits : List Char) : Option Char := do
  let ds ← digits.mapM hexDigit?
  let n := ds.foldl (16 * · + ·) 0
  if n.isValidChar then some (Char.ofNat n) else none

/-- The character that a backslash and a letter stand for. -/
def escaped? : Char → Option Char
  | 'b' => some '\x08'
  | 't' => some '\t'
  | 'n' => some '\n'
  | 'f' => some '\x0c'
  | 'r' => some '\r'
  | '"' => some '"'
  | '\\' => some '\\'
  | _ => none

/-- The rest of a string in double quotes. -/
def basicRest : Reader (List Char)
  | [] => none
  | '"' :: cs => some ([], cs)
  | '\\' :: 'u' :: a :: b :: c :: d :: cs => do
    let x ← codePoint? [a, b, c, d]
    let (s, cs) ← basicRest cs
    return (x :: s, cs)
  | '\\' :: 'U' :: a :: b :: c :: d :: e :: f :: g :: h :: cs => do
    let x ← codePoint? [a, b, c, d, e, f, g, h]
    let (s, cs) ← basicRest cs
    return (x :: s, cs)
  | '\\' :: c :: cs => do
    let x ← escaped? c
    let (s, cs) ← basicRest cs
    return (x :: s, cs)
  | c :: cs => do
    if !isPlain c then none
    let (s, cs) ← basicRest cs
    return (c :: s, cs)

/-- Where a reader of a text over several lines is. -/
inductive Place
  | inText
  /-- After a backslash at the end of a line, which joins it to the next text; `true` once the line
  has ended. -/
  | joining (ended : Bool)

/-- The rest of a text in three double quotes. One or two more quotes may stand before the last
three. -/
def basicLines : Place → Reader (List Char)
  | _, [] => none
  | .joining _, '\r' :: '\n' :: cs => basicLines (.joining true) cs
  | .joining ended, c :: cs =>
    if c = '\n' then basicLines (.joining true) cs
    else if isBlank c then basicLines (.joining ended) cs
    else if ended then basicLines .inText (c :: cs)
    else none
  | .inText, '"' :: '"' :: '"' :: '"' :: '"' :: cs => some (['"', '"'], cs)
  | .inText, '"' :: '"' :: '"' :: '"' :: cs => some (['"'], cs)
  | .inText, '"' :: '"' :: '"' :: cs => some ([], cs)
  | .inText, '\\' :: 'u' :: a :: b :: c :: d :: cs => do
    let x ← codePoint? [a, b, c, d]
    let (s, cs) ← basicLines .inText cs
    return (x :: s, cs)
  | .inText, '\\' :: 'U' :: a :: b :: c :: d :: e :: f :: g :: h :: cs => do
    let x ← codePoint? [a, b, c, d, e, f, g, h]
    let (s, cs) ← basicLines .inText cs
    return (x :: s, cs)
  | .inText, '\\' :: c :: cs =>
    match escaped? c with
    | some x => do
      let (s, cs) ← basicLines .inText cs
      return (x :: s, cs)
    | none => basicLines (.joining false) (c :: cs)
  | .inText, '\r' :: '\n' :: cs => do
    let (s, cs) ← basicLines .inText cs
    return ('\n' :: s, cs)
  | .inText, c :: cs => do
    if !isPlain c && c ≠ '\n' then none
    let (s, cs) ← basicLines .inText cs
    return (c :: s, cs)
termination_by p cs => (cs.length, match p with | .inText => 0 | .joining _ => 1)

/-- The rest of a string in single quotes, which has no escapes. -/
def literalRest : Reader (List Char) := do
  let s ← span fun c => isPlain c && c ≠ '\''
  char '\''
  return s

/-- The rest of a text in three single quotes. -/
def literalLines : Reader (List Char)
  | [] => none
  | '\'' :: '\'' :: '\'' :: '\'' :: '\'' :: cs => some (['\'', '\''], cs)
  | '\'' :: '\'' :: '\'' :: '\'' :: cs => some (['\''], cs)
  | '\'' :: '\'' :: '\'' :: cs => some ([], cs)
  | '\r' :: '\n' :: cs => do
    let (s, cs) ← literalLines cs
    return ('\n' :: s, cs)
  | c :: cs => do
    if !isPlain c && c ≠ '\n' then none
    let (s, cs) ← literalLines cs
    return (c :: s, cs)

/-- A string on one line. -/
def shortString : Reader String :=
  String.ofList <$> ((do char '"'; basicRest) <|> (do char '\''; literalRest))

/-- A text over several lines; a line end right after the opening quotes does not count. -/
def longString : Reader String := do
  let basic ← (do text "\"\"\""; pure true) <|> (do text "'''"; pure false)
  let _ ← optional newline
  String.ofList <$> if basic then basicLines .inText else literalLines

/-- Digits that `p` holds of, with single underscores between them. -/
def digits (p : Char → Bool) : Reader (List Char) := do
  let first ← one p
  return first :: (← many (do let _ ← optional (char '_'); one p))

def sign : Reader Bool := do
  match ← optional (one fun c => c = '+' || c = '-') with
  | some '-' => return true
  | _ => return false

/-- A whole number without leading zeros: whether it is negative, and its digits. -/
def decimal : Reader (Bool × List Char) := do
  let negative ← sign
  match ← get with
  | '0' :: cs => do
    set cs
    return (negative, ['0'])
  | _ => return (negative, ← digits Char.isDigit)

def ofDigits (base : Nat) (ds : List Char) : Nat :=
  ds.foldl (fun n c => base * n + (hexDigit? c).getD 0) 0

/-- A number in base 2, 8 or 16. -/
def based (mark : Char) (base : Nat) : Reader Int := do
  char '0'
  char mark
  return ofDigits base (← digits fun c => (hexDigit? c).any (· < base))

/-- A whole number of 64 bits. -/
def integer : Reader Value := do
  let i ← based 'x' 16 <|> based 'o' 8 <|> based 'b' 2 <|> (do
    let (negative, ds) ← decimal
    let n : Int := ofDigits 10 ds
    return if negative then -n else n)
  if -0x8000000000000000 ≤ i && i < 0x8000000000000000 then return .integer i else failure

/-- The exponent of a fraction. -/
def exponent : Reader Int := do
  let _ ← one fun c => c = 'e' || c = 'E'
  let negative ← sign
  let n : Int := ofDigits 10 (← digits Char.isDigit)
  return if negative then -n else n

/-- Whether `n · 10^e` is too large for a double: half a unit above the largest or more. -/
def overflows (n : Nat) (e : Int) : Bool :=
  let size := (Nat.toDigits 10 n).length + e
  n ≠ 0 && (309 < size || (size = 309 &&
    if 0 ≤ e then 1 <<< 1024 - 1 <<< 970 ≤ n * Nat.pow 10 e.toNat
    else (1 <<< 1024 - 1 <<< 970) * Nat.pow 10 (-e).toNat ≤ n))

/-- A number with a fraction, an exponent or both. -/
def fraction : Reader Value := do
  let (negative, whole) ← decimal
  let part ← optional (do char '.'; digits Char.isDigit)
  let e ← if part.isSome then optional exponent else some <$> exponent
  let places := part.getD []
  if !negative && overflows (ofDigits 10 (whole ++ places)) (e.getD 0 - places.length) then failure
  return .float

def special : Reader Value := do
  let _ ← sign
  text "inf" <|> text "nan"
  return .float

/-- A number of `n` digits from `lo` to `hi`. -/
def field (n lo hi : Nat) : Reader Nat := do
  let ds ← (List.replicate n ()).mapM fun _ => one Char.isDigit
  let v := ofDigits 10 ds
  if lo ≤ v && v ≤ hi then return v else failure

def daysIn (year month : Nat) : Nat :=
  if month = 2 then
    if year % 4 = 0 && (year % 100 ≠ 0 || year % 400 = 0) then 29 else 28
  else if month ∈ [4, 6, 9, 11] then 30 else 31

def date : Reader Unit := do
  let year ← field 4 0 9999
  char '-'
  let month ← field 2 1 12
  char '-'
  let _ ← field 2 1 (daysIn year month)

def time : Reader Unit := do
  let _ ← field 2 0 23
  char ':'
  let _ ← field 2 0 59
  char ':'
  let _ ← field 2 0 60
  let _ ← optional (do char '.'; let _ ← one Char.isDigit; span Char.isDigit)

/-- The distance from universal time. -/
def offset : Reader Unit :=
  (do let _ ← one fun c => c = 'Z' || c = 'z') <|> (do
    let _ ← one fun c => c = '+' || c = '-'
    let _ ← field 2 0 23
    char ':'
    let _ ← field 2 0 59)

/-- A date, a time of day, or both. -/
def moment : Reader Value := do
  (do
    date
    let _ ← optional (do
      let _ ← one fun c => c = 'T' || c = 't' || c = ' '
      time
      let _ ← optional offset)) <|> time
  return .moment

def boolean : Reader Value :=
  (do text "true"; return .boolean true) <|> (do text "false"; return .boolean false)

/-- Any value but an array or a table. -/
def scalar : Reader Value :=
  .string <$> longString <|> .string <$> shortString <|> moment <|> fraction <|> special <|> integer
    <|> boolean

end Gateware.Toml
