import LogicAsm.Instr.Reader
import LogicAsm.Lowering.Expr
import LogicAsm.Source.Stmt

/-!
# Code of statements and programs

Control structures become jumps between labels that are numbered by one counter. The code of a
function is made once, at its declaration, and copied at each call.
-/

namespace LogicAsm

open Gen

/-! ## Labels of control structures -/

/-- The label after the branch that is taken if a condition holds. -/
def ifLabel (id : Nat) : String := ".ifLbl" ++ toString id

/-- The label after a control structure. -/
def contLabel (id : Nat) : String := ".contLbl" ++ toString id

/-- The label of the test of a loop. -/
def whileLabel (id : Nat) : String := ".whileLbl" ++ toString id

/-! ## Statements -/

/-- Print the value of an expression. -/
def Expr.lowerPrint (e : Expr) : Gen Unit := do
  emit (.print (← e.operand e.lower))

/-- The text of an argument of a drawing. -/
def Expr.drawText (e : Expr) : Except Fault String :=
  match e.text? with
  | some text => .ok text
  | none => .error (.noText e.kind)

/-- The drawing with the given arguments. -/
def Instr.ofDrawing (args : List Expr) : Except Fault Instr := do
  match ← args.mapM Expr.drawText with
  | shape :: rest => return .draw shape rest
  | [] => throw .noShape

/-- The text between the first and the last character. -/
def between (s : String) : String := String.ofList (s.toList.drop 1).dropLast

mutual

/-- Emit the code of a statement. -/
def Stmt.lower : Stmt → Gen Unit
  | .block statements => Stmt.lowerAll statements
  | .expr value => value.lower
  | .print args => do
    args.forM Expr.lowerPrint
    emit (.printFlush Machine.message)
  | .draw args => do emit (← ofExcept (Instr.ofDrawing args))
  | .drawFlush => emit (.drawFlush Machine.display)
  | .asm source => do emit (← ofExcept (Instr.ofLine (between source)))
  | .function name body => do declare name (← detached body.lower)
  | .ifThen cond thenBody => do
    cond.lower
    let id ← freshId
    emit (.gotoUnless (.label (ifLabel id)))
    thenBody.lower
    emit (.label (ifLabel id))
  | .ifElse cond thenBody elseBody => do
    cond.lower
    let id ← freshId
    emit (.gotoUnless (.label (ifLabel id)))
    thenBody.lower
    emit (.goto (.label (contLabel id)))
    emit (.label (ifLabel id))
    elseBody.lower
    emit (.label (contLabel id))
  | .whileDo cond body => do
    let id ← freshId
    emit (.label (whileLabel id))
    cond.lower
    emit (.gotoUnless (.label (contLabel id)))
    body.lower
    emit (.goto (.label (whileLabel id)))
    emit (.label (contLabel id))
  | .label name => emit (.label name)
  | .goto name => emit (.goto (.label name))
  | .foreign kind => throw (.badStmt kind)

/-- Emit the code of statements in order. -/
def Stmt.lowerAll : List Stmt → Gen Unit
  | [] => pure ()
  | s :: rest => do
    s.lower
    Stmt.lowerAll rest

/-- Emit the code of the statements of a body. -/
def Body.lower : Body → Gen Unit
  | .block statements | .program statements => Stmt.lowerAll statements
  | .foreign kind => throw (.noStatements kind)

end

/-! ## Programs -/

/-- The code that clears the stack pointer and the registers. -/
def preamble : List Instr :=
  (Machine.stackPtr :: Machine.generalRegisters).map (.set · "0")

/-- Emit the code of a program and return the whole buffer. -/
def Body.generate : Body → Gen (List Instr)
  | .program statements => do
    emitAll preamble
    Stmt.lowerAll statements
    emit .halt
    return (← get).code
  | root => throw (.badRoot root.kind)

end LogicAsm
