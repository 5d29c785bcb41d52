import LogicAsm.Text.Printable

/-!
# Quoted text

The form in which a message shows a text that may hold any character: between two quotes, on
one line, with escapes for what would not be seen.
-/

namespace LogicAsm.Text

/-- The lower-case hexadecimal digits of `n`, cut or filled with zeros to `width` digits. -/
def hexDigits : (width n : Nat) → List Char
  | 0, _ => []
  | width + 1, n => hexDigits width (n / 16) ++ [Nat.digitChar (n % 16)]

/-- The quote around a text: a single one, unless the text holds a single quote and no double
quote. -/
def delimiter (cs : List Char) : Char :=
  if '\x27' ∈ cs ∧ '"' ∉ cs then '"' else '\x27'

/-- A character by its number, in the shortest of the three escape forms that holds it. -/
def numbered (c : Char) : List Char :=
  if c.toNat < 0x100 then '\\' :: 'x' :: hexDigits 2 c.toNat
  else if c.toNat < 0x10000 then '\\' :: 'u' :: hexDigits 4 c.toNat
  else '\\' :: 'U' :: hexDigits 8 c.toNat

/-- A character as it stands between two quotes `q`. -/
def escape (q c : Char) : List Char :=
  if c = q ∨ c = '\\' then ['\\', c]
  else if c = '\t' then ['\\', 't']
  else if c = '\n' then ['\\', 'n']
  else if c = '\r' then ['\\', 'r']
  else if isPrintable c then [c]
  else numbered c

/-- A text between quotes. -/
def quoted (s : String) : String :=
  let q := delimiter s.toList
  String.ofList (q :: s.toList.flatMap (escape q) ++ [q])

end LogicAsm.Text
