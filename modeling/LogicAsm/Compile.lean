import LogicAsm.Listing
import LogicAsm.Lowering.Stmt

/-!
# Compilation

From a program to the lines of its listing. Each compilation starts from a fresh generator, so
label numbers and functions are its own.
-/

namespace LogicAsm

/-- The code of a program, with symbolic jumps. -/
def codeOf (program : Body) : Except Fault (List Instr) :=
  match program.generate.run {} with
  | .ok code _ => .ok code
  | .error fault _ => .error fault

/-- The lines of a program before linking. -/
def compileSymbolic (program : Body) : Except Fault (List String) := do
  Instr.toLines (← codeOf program)

/-- The lines of a program. -/
def compile (program : Body) : Except Fault (List String) := do
  Instr.toLines (← link (← codeOf program))

end LogicAsm
