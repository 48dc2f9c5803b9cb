/-!
# JSON text

Compact JSON: strings are quoted with the short escapes where there is one, other control
characters as four hexadecimal digits, and everything else as it stands.
-/
namespace Gateware.Json

def hexDigit (n : Nat) : Char := (Nat.toDigits 16 (n % 16)).headD '0'

/-- One character inside a quoted string. -/
def escape (c : Char) : String :=
  if c = '"' then "\\\""
  else if c = '\\' then "\\\\"
  else if c = '\n' then "\\n"
  else if c = '\r' then "\\r"
  else if c = '\t' then "\\t"
  else if c.toNat = 8 then "\\b"
  else if c.toNat = 12 then "\\f"
  else if c.toNat < 32 then "\\u00" ++ (hexDigit (c.toNat / 16)).toString ++
    (hexDigit c.toNat).toString
  else c.toString

def string (s : String) : String := "\"" ++ String.join (s.toList.map escape) ++ "\""

def optional : Option String → String
  | none => "null"
  | some s => string s

def array (items : List String) : String := "[" ++ ",".intercalate items ++ "]"

/-- An object whose fields keep the order given; the values are JSON text already. -/
def object (fields : List (String × String)) : String :=
  "\x7b" ++ ",".intercalate (fields.map fun f => string f.1 ++ ":" ++ f.2) ++ "\x7d"

end Gateware.Json
