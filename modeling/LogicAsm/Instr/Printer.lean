import LogicAsm.Fault
import LogicAsm.Instr.Basic

/-!
# Printed instructions

An instruction is printed as its words, with a space between any two.
-/

namespace LogicAsm

/-- The text of a jump destination. -/
def Target.text : Target → String
  | label name => name
  | line number => toString number

namespace Instr

/-- The words of an instruction: its opcode, then its operands. A raw line is one word, and an
unknown instruction has none. -/
def words : Instr → List String
  | set dest value => ["set", dest, value]
  | op mnemonic dest left right => ["op", mnemonic, dest, left, right]
  | write value bank addr => ["write", value, bank, addr]
  | read dest bank addr => ["read", dest, bank, addr]
  | jump target cond left right => ["jump", target.text, cond, left, right]
  | rawJump target operands => "jump" :: target.text :: operands
  | label name => ["label", name]
  | print value => ["print", value]
  | printFlush sink => ["printflush", sink]
  | draw shape args => "draw" :: shape :: args
  | drawFlush sink => ["drawflush", sink]
  | sensor dest entity attr => ["sensor", dest, entity, attr]
  | halt => ["end"]
  | raw text => [text]
  | foreign _ => []

/-- The line of an instruction. -/
def toLine : Instr → Except Fault String
  | foreign kind => .error (.badInstr kind)
  | i => .ok (" ".intercalate i.words)

/-- The lines of a code, or the fault of the first instruction without a line. -/
def toLines (code : List Instr) : Except Fault (List String) := code.mapM toLine

@[simp] theorem toLine_raw (text : String) : (raw text).toLine = .ok text := by
  simp [toLine, words]

theorem toLine_eq_ok {i : Instr} {line : String} :
    i.toLine = .ok line ↔ (∀ kind, i ≠ foreign kind) ∧ " ".intercalate i.words = line := by
  cases i <;> simp [toLine]

end Instr

end LogicAsm
