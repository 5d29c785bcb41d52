import LogicAsm.Machine

/-!
# Instructions

The instructions of the machine, and the label definitions and symbolic jumps that stand among
them until the code is linked. Operands are texts, as the listing shows them.
-/

namespace LogicAsm

/-- The destination of a jump: a label, or the number of a line counted from zero. -/
inductive Target where
  | label (name : String)
  | line (number : Int)
  deriving DecidableEq, Repr

/-- An instruction. -/
inductive Instr where
  | set (dest value : String)
  /-- The result of an operation on two operands. -/
  | op (mnemonic dest left right : String)
  /-- Put a value into a cell of a memory bank. -/
  | write (value bank addr : String)
  /-- Get the value of a cell of a memory bank. -/
  | read (dest bank addr : String)
  /-- Go to the target if the condition holds of the operands. -/
  | jump (target : Target) (cond left right : String)
  /-- A jump with operands of another form, as written by hand. -/
  | rawJump (target : Target) (operands : List String)
  /-- The definition of a label. It is no instruction of the machine. -/
  | label (name : String)
  | print (value : String)
  | printFlush (sink : String)
  | draw (shape : String) (args : List String)
  | drawFlush (sink : String)
  | sensor (dest entity attr : String)
  | halt
  /-- A line as it is. -/
  | raw (text : String)
  /-- An instruction of a kind the printer does not know. -/
  | foreign (kind : String)
  deriving DecidableEq, Repr

namespace Instr

/-- The name that an instruction defines, if it is a label definition. -/
def label? : Instr → Option String
  | label name => some name
  | _ => none

/-- A label definition. -/
def isLabel (i : Instr) : Bool := i.label?.isSome

/-- The destination of a jump of either form. -/
def target? : Instr → Option Target
  | jump target _ _ _ | rawJump target _ => some target
  | _ => none

/-- A jump that is always taken. -/
def goto (target : Target) : Instr := .jump target Machine.always Machine.null Machine.null

/-- A jump that is taken if the accumulator holds zero. -/
def gotoUnless (target : Target) : Instr := .jump target "equal" Machine.acc "0"

@[simp] theorem label?_label (name : String) : (label name).label? = some name := rfl

theorem label?_eq_some {i : Instr} {name : String} : i.label? = some name ↔ i = label name := by
  cases i <;> simp [label?]

end Instr

end LogicAsm
