import LogicAsm.Source.Operator

/-!
# Faults

Everything that can go wrong, as causes. Faults of the program that is compiled carry a
diagnostic with a stable code; faults of a malformed tree or listing have a message only.
-/

namespace LogicAsm

/-- What a caller can show or match on: a stable code, a message and the name at fault. -/
structure Diagnostic where
  code : String
  message : String
  subject : Option String := none
  deriving DecidableEq, Repr

/-- A diagnostic on one line. -/
def Diagnostic.render (d : Diagnostic) : String := "[" ++ d.code ++ "] " ++ d.message

/-- The family of operators that a slot calls for. -/
inductive OperatorRole where
  | unary
  | binary
  | update
  deriving DecidableEq, Repr

/-- The family, as messages name it. -/
def OperatorRole.name : OperatorRole → String
  | unary => "unary"
  | binary => "binary"
  | update => "self-assignment"

/-- The cause of a failure. -/
inductive Fault where
  /-- The root of the tree is no program. -/
  | badRoot (kind : String)
  | badExpr (kind : String)
  | badStmt (kind : String)
  /-- An instruction of a kind that has no printed form. -/
  | badInstr (kind : String)
  | unknownFunction (name : String)
  | unknownOperator (role : OperatorRole) (op : Operator)
  /-- A jump to a label that the code does not define. -/
  | undefinedLabel (name : String)
  /-- A node without statements stands where a body is expected. -/
  | noStatements (kind : String)
  /-- A node without a text of its own is an argument of a drawing. -/
  | noText (kind : String)
  /-- A drawing without a shape. -/
  | noShape
  /-- A line number in a listing has too many digits. -/
  | longNumber (digits : Nat)
  deriving DecidableEq, Repr

/-- The greatest number of digits that a line number in a listing may have. -/
def maxDigits : Nat := 4300

namespace Fault

/-- The diagnostic of a fault in the program. -/
def diagnostic? : Fault → Option Diagnostic
  | badRoot kind =>
    some ⟨"unsupported-node", "root node must be Program, got " ++ kind, some kind⟩
  | badExpr kind => some ⟨"unsupported-node", "invalid expression found: " ++ kind, some kind⟩
  | badStmt kind => some ⟨"unsupported-node", "invalid statement found: " ++ kind, some kind⟩
  | badInstr kind => some ⟨"unsupported-node", "cannot print instruction " ++ kind, some kind⟩
  | unknownFunction name => some ⟨"unknown-function", "unknown function: " ++ name, some name⟩
  | unknownOperator role op =>
    some ⟨"unsupported-operator", "unknown " ++ role.name ++ " operator: " ++ op.describe,
      some op.text⟩
  | undefinedLabel name =>
    some ⟨"undefined-label", "invalid jump to label '" ++ name ++ "'", some name⟩
  | _ => none

/-- The message of a fault. -/
def message (fault : Fault) : String :=
  match fault with
  | noStatements kind => "'" ++ kind ++ "' object has no attribute 'statements'"
  | noText kind => "'" ++ kind ++ "' object has no attribute 'text'"
  | noShape => "not enough values to unpack (expected at least 1, got 0)"
  | longNumber digits =>
    "Exceeds the limit (" ++ toString maxDigits ++
      " digits) for integer string conversion: value has " ++ toString digits ++
      " digits; use sys.set_int_max_str_digits() to increase the limit"
  | _ => fault.diagnostic?.elim "" Diagnostic.render

end Fault

end LogicAsm
