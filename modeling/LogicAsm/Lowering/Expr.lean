import LogicAsm.Generator
import LogicAsm.Lowering.Operator
import LogicAsm.Source.Expr

/-!
# Code of expressions

The code of an expression leaves its value in the accumulator. Atoms take no code where they
are operands: their text stands in the instruction. If both operands of an operation are
computed, the left value is saved on the memory bank while the right one is computed.
-/

namespace LogicAsm

open Gen

/-- Where the value of an expression goes: it stays in the accumulator, or is stored in a
variable. -/
inductive Dest where
  | acc
  | var (name : String)
  deriving DecidableEq, Repr

namespace Dest

/-- The operand that receives the value. -/
def operand : Dest → String
  | acc => Machine.acc
  | var name => name

/-- Move a value from the accumulator to its destination. -/
def settle : Dest → Gen Unit
  | acc => pure ()
  | var name => emit (.set name Machine.acc)

end Dest

namespace Expr

/-- The operand that stands for `e`: the text of an atom, or the accumulator after the code of
`e`, which `code` emits. -/
def operand (e : Expr) (code : Gen Unit) : Gen String :=
  match e.atom? with
  | some text => pure text
  | none => do
    code
    return Machine.acc

/-- The operands that stand for `l` and `r`, whose code `codeL` and `codeR` emit. -/
def operands (l r : Expr) (codeL codeR : Gen Unit) : Gen (String × String) :=
  match l.atom?, r.atom? with
  | some left, some right => pure (left, right)
  | some left, none => do
    codeR
    return (left, Machine.acc)
  | none, some right => do
    codeL
    return (Machine.acc, right)
  | none, none => do
    codeL
    push Machine.acc
    codeR
    pop Machine.regB
    return (Machine.regB, Machine.acc)

/-- Emit the code of an expression and bring its value to a destination. The value of an atom
or of a binary operation goes there directly, any other by way of the accumulator. -/
def lowerTo : Dest → Expr → Gen Unit
  | dest, literal text | dest, name text => emit (.set dest.operand text)
  | _, bare text => throw (.badExpr (bare text).kind)
  | dest, call function => do
    emitAll (← lookup function)
    dest.settle
  | dest, paren inner => do
    inner.lowerTo .acc
    dest.settle
  | dest, unary op e => do
    let arg ← operand e (e.lowerTo .acc)
    let op ← ofExcept op.asUnary
    emit (op.instr arg)
    dest.settle
  | dest, binary op l r => do
    let op ← ofExcept op.asBinary
    let (left, right) ← operands l r (l.lowerTo .acc) (r.lowerTo .acc)
    emit (.op op.mnemonic dest.operand left right)
  | dest, assign target value => do
    value.lowerTo (.var target)
    dest.settle
  | dest, update op target value => do
    let op ← ofExcept op.asUpdate
    let arg ← operand value (value.lowerTo .acc)
    emit (.op op.mnemonic target target arg)
    dest.settle
  | dest, sensor block attr => do
    emit (.sensor Machine.acc block ("@" ++ attr))
    dest.settle
  | _, foreign kind => throw (.badExpr kind)

/-- Emit the code of an expression. Its value ends up in the accumulator. -/
def lower (e : Expr) : Gen Unit := e.lowerTo .acc

end Expr

end LogicAsm
