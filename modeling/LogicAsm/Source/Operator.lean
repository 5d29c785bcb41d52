import LogicAsm.Text.Quoted

/-!
# Operators

The operators of the source language, and the operator slot of a node. A slot may hold an
operator of the wrong family, or a value that is no operator: lowering reports it, and the
message shows what was found.
-/

namespace LogicAsm

/-- The operators with one operand. -/
inductive UnaryOp where
  | neg
  | bitNot
  deriving DecidableEq, Repr

/-- The operators with two operands, by falling precedence. -/
inductive BinaryOp where
  | pow
  | mul
  | div
  | mod
  | add
  | sub
  | shl
  | shr
  | lt
  | gt
  | le
  | ge
  | eq
  | ne
  | bitAnd
  | bitXor
  | bitOr
  | and
  deriving DecidableEq, Repr

/-- The operators of an assignment that updates its variable. -/
inductive UpdateOp where
  | add
  | sub
  deriving DecidableEq, Repr

/-- The content of an operator slot. -/
inductive Operator where
  | unary (op : UnaryOp)
  | binary (op : BinaryOp)
  | update (op : UpdateOp)
  | absent
  | flag (value : Bool)
  | number (value : Int)
  | word (text : String)
  deriving DecidableEq, Repr

/-- The number of an operator within its family, and its name. -/
structure OperatorTag where
  number : Nat
  name : String

namespace UnaryOp

def tag : UnaryOp → OperatorTag
  | neg => ⟨1, "UnaryOp.NEG"⟩
  | bitNot => ⟨2, "UnaryOp.BIT_NOT"⟩

def all : List UnaryOp := [neg, bitNot]

end UnaryOp

namespace BinaryOp

def tag : BinaryOp → OperatorTag
  | pow => ⟨1, "BinaryOp.POW"⟩
  | mul => ⟨2, "BinaryOp.MUL"⟩
  | div => ⟨3, "BinaryOp.DIV"⟩
  | mod => ⟨4, "BinaryOp.MOD"⟩
  | add => ⟨5, "BinaryOp.ADD"⟩
  | sub => ⟨6, "BinaryOp.SUB"⟩
  | shl => ⟨7, "BinaryOp.SHL"⟩
  | shr => ⟨8, "BinaryOp.SHR"⟩
  | lt => ⟨9, "BinaryOp.LT"⟩
  | gt => ⟨10, "BinaryOp.GT"⟩
  | le => ⟨11, "BinaryOp.LE"⟩
  | ge => ⟨12, "BinaryOp.GE"⟩
  | eq => ⟨13, "BinaryOp.EQ"⟩
  | ne => ⟨14, "BinaryOp.NE"⟩
  | bitAnd => ⟨15, "BinaryOp.BIT_AND"⟩
  | bitXor => ⟨16, "BinaryOp.BIT_XOR"⟩
  | bitOr => ⟨17, "BinaryOp.BIT_OR"⟩
  | and => ⟨18, "BinaryOp.AND"⟩

def all : List BinaryOp :=
  [pow, mul, div, mod, add, sub, shl, shr, lt, gt, le, ge, eq, ne, bitAnd, bitXor, bitOr, and]

end BinaryOp

namespace UpdateOp

def tag : UpdateOp → OperatorTag
  | add => ⟨1, "SelfAssignOp.ADD"⟩
  | sub => ⟨2, "SelfAssignOp.SUB"⟩

def all : List UpdateOp := [add, sub]

end UpdateOp

namespace Operator

/-- Every operator, of the three families in turn. -/
def known : List Operator :=
  UnaryOp.all.map unary ++ BinaryOp.all.map binary ++ UpdateOp.all.map update

/-- The tag of an operator; another value has none. -/
def tag? : Operator → Option OperatorTag
  | unary op => some op.tag
  | binary op => some op.tag
  | update op => some op.tag
  | _ => none

/-- The slot content that a word stands for: the operator of that name, or else the word. -/
def ofWord (s : String) : Operator :=
  (known.find? fun op => op.tag?.any (·.name == s)).getD (word s)

/-- Every operator is found by its name. -/
theorem ofWord_name {op : Operator} {tag : OperatorTag} (h : op.tag? = some tag) :
    ofWord tag.name = op := by
  cases op with
  | unary op | binary op | update op => cases h; cases op <;> decide
  | absent | flag | number | word => simp [tag?] at h

/-- The plain form of a slot content. -/
def text : Operator → String
  | unary op => op.tag.name
  | binary op => op.tag.name
  | update op => op.tag.name
  | absent => "None"
  | flag true => "True"
  | flag false => "False"
  | number n => toString n
  | word s => s

/-- The form of a slot content that tells operators, values and words apart. -/
def describe (op : Operator) : String :=
  match op with
  | word s => Text.quoted s
  | _ =>
    match op.tag? with
    | some tag => "<" ++ tag.name ++ ": " ++ toString tag.number ++ ">"
    | none => op.text

end Operator

end LogicAsm
