import LogicAsm.Source.Operator

/-!
# Expressions

The expressions of the source language. Atoms are the expressions whose text can stand in an
instruction as it is.
-/

namespace LogicAsm

/-- An expression. -/
inductive Expr where
  /-- A number or a quoted string, as written. -/
  | literal (text : String)
  /-- A variable. -/
  | name (text : String)
  /-- A text of unknown role: it can be drawn, but it has no value. -/
  | bare (text : String)
  /-- The inlined body of a function. -/
  | call (function : String)
  | paren (inner : Expr)
  | unary (op : Operator) (operand : Expr)
  | binary (op : Operator) (left right : Expr)
  | assign (target : String) (value : Expr)
  /-- An assignment of the target, changed by the value. -/
  | update (op : Operator) (target : String) (value : Expr)
  /-- An attribute of a linked block. -/
  | sensor (block attr : String)
  /-- Something that is no expression, of the given kind. -/
  | foreign (kind : String)
  deriving DecidableEq, Repr

namespace Expr

/-- The text of an atom, which needs no code; every other expression has to be computed. -/
def atom? : Expr → Option String
  | literal text | name text => some text
  | _ => none

/-- A literal or a variable. One in parentheses is not an atom. -/
def isAtom (e : Expr) : Bool := e.atom?.isSome

/-- The text an expression carries, whatever its role. -/
def text? : Expr → Option String
  | literal text | name text | bare text => some text
  | _ => none

/-- The kind of a node, as messages name it. -/
def kind : Expr → String
  | literal _ => "Literal"
  | name _ => "Name"
  | bare _ => "Atom"
  | call _ => "Call"
  | paren _ => "Paren"
  | unary _ _ => "Unary"
  | binary _ _ _ => "Binary"
  | assign _ _ => "Assign"
  | update _ _ _ => "SelfAssign"
  | sensor _ _ => "Sensor"
  | foreign kind => kind

theorem text?_of_atom? {e : Expr} {text : String} (h : e.atom? = some text) :
    e.text? = some text := by
  cases e <;> simp_all [atom?, text?]

end Expr

end LogicAsm
