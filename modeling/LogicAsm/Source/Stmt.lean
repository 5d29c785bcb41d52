import LogicAsm.Source.Expr

/-!
# Statements and programs

A body is only asked for its statements, so a block and a program both serve as one. The root
of a compilation has to be a program.
-/

namespace LogicAsm

mutual

/-- A statement. -/
inductive Stmt where
  | block (statements : List Stmt)
  /-- An expression for its effect. -/
  | expr (value : Expr)
  | print (args : List Expr)
  /-- A drawing: the shape, then its arguments. -/
  | draw (args : List Expr)
  | drawFlush
  /-- A line of assembly, between two delimiters. -/
  | asm (source : String)
  | function (name : String) (body : Body)
  | ifThen (cond : Expr) (thenBody : Body)
  | ifElse (cond : Expr) (thenBody elseBody : Body)
  | whileDo (cond : Expr) (body : Body)
  | label (name : String)
  | goto (name : String)
  /-- Something that is no statement, of the given kind. -/
  | foreign (kind : String)

/-- What stands where a sequence of statements is expected. -/
inductive Body where
  | block (statements : List Stmt)
  | program (statements : List Stmt)
  /-- Something without statements, of the given kind. -/
  | foreign (kind : String)

end

/-- The kind of a node, as messages name it. -/
def Body.kind : Body → String
  | block _ => "Block"
  | program _ => "Program"
  | foreign kind => kind

end LogicAsm
