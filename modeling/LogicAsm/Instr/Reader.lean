import LogicAsm.Instr.Printer
import LogicAsm.Text.Token

/-!
# Instructions from lines

Only the lines that matter for linking are taken apart: label definitions and jumps. Every
other line is kept as it is.
-/

namespace LogicAsm

open Text (Token tokens)

/-- A field of digits. Only the ten ASCII digits count. -/
def isNumeral (s : String) : Bool := s != "" && s.toList.all Char.isDigit

/-- The destination that a field denotes: a line number if it is all digits, else a label. -/
def Target.ofField (s : String) : Except Fault Target :=
  if isNumeral s then
    if s.length ≤ maxDigits then .ok (.line (Nat.ofDigitChars 10 s.toList 0))
    else .error (.longNumber s.length)
  else .ok (.label s)

/-- A jump with the tokens after its destination: three fields are a condition and its
operands, anything else is kept as written. -/
def Instr.jumpWith (target : Target) : List Token → Instr
  | [.field cond, .field left, .field right] => .jump target cond left right
  | operands => .rawJump target (operands.map Token.text)

/-- The instruction of a line. A label definition or a jump starts with two fields: the opcode
and a name. What follows the name of a label is ignored. -/
def Instr.ofLine (s : String) : Except Fault Instr :=
  match tokens s.toList with
  | .field opcode :: .field name :: operands =>
    if opcode = "label" then .ok (.label name)
    else if opcode = "jump" then (Target.ofField name).map (jumpWith · operands)
    else .ok (.raw s)
  | _ => .ok (.raw s)

end LogicAsm
