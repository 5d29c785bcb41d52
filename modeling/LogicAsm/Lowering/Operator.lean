import LogicAsm.Fault
import LogicAsm.Instr.Basic

/-!
# Code of operators

The mnemonics of the operators, and the check that an operator slot holds an operator of the
family it calls for.
-/

namespace LogicAsm

/-- The mnemonic of an operation. -/
def BinaryOp.mnemonic : BinaryOp → String
  | pow => "pow"
  | mul => "mul"
  | div => "div"
  | mod => "mod"
  | add => "add"
  | sub => "sub"
  | shl => "lshift"
  | shr => "rshift"
  | lt => "lessThan"
  | gt => "greaterThan"
  | le => "lessThanEq"
  | ge => "greaterThanEq"
  | eq => "equal"
  | ne => "notEqual"
  | bitAnd => "and"
  | bitXor => "xor"
  | bitOr => "or"
  | and => "land"

/-- The mnemonic of an update. -/
def UpdateOp.mnemonic : UpdateOp → String
  | add => "add"
  | sub => "sub"

/-- The operation on one operand, into the accumulator. A sign is a factor, and the second
operand of a complement is not used. -/
def UnaryOp.instr (arg : String) : UnaryOp → Instr
  | neg => .op "mul" Machine.acc "-1" arg
  | bitNot => .op "not" Machine.acc arg Machine.null

namespace Operator

/-- The unary operator of a slot. -/
def asUnary : Operator → Except Fault UnaryOp
  | unary op => .ok op
  | op => .error (.unknownOperator .unary op)

/-- The binary operator of a slot. -/
def asBinary : Operator → Except Fault BinaryOp
  | binary op => .ok op
  | op => .error (.unknownOperator .binary op)

/-- The update operator of a slot. -/
def asUpdate : Operator → Except Fault UpdateOp
  | update op => .ok op
  | op => .error (.unknownOperator .update op)

theorem asUnary_eq_ok {slot : Operator} {op : UnaryOp} :
    slot.asUnary = .ok op ↔ slot = unary op := by
  cases slot <;> simp [asUnary]

theorem asBinary_eq_ok {slot : Operator} {op : BinaryOp} :
    slot.asBinary = .ok op ↔ slot = binary op := by
  cases slot <;> simp [asBinary]

theorem asUpdate_eq_ok {slot : Operator} {op : UpdateOp} :
    slot.asUpdate = .ok op ↔ slot = update op := by
  cases slot <;> simp [asUpdate]

end Operator

end LogicAsm
