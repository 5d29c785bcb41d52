import Mathlib.Logic.Function.Basic
import LogicAsm.Compile

/-!
# Outlines of generated code

What lowering emits, said once and without the generator's state: `Expr.Lowers` and
`Stmt.Lowers` give the code of each construct as a list of pieces, where the copy of a function
that stands for a call stays together as one piece. A generator succeeds on a tree just if the
tree has an outline, and it appends the code of that outline (`Expr.run_lowerTo_iff`,
`Stmt.lowers_of_run`, `Stmt.Lowers.run`). Facts about generated code are proved by induction on
these relations.
-/

namespace LogicAsm

open Gen

/-! ## Pieces -/

/-- A piece of generated code: an instruction, or the copy of a function that stands for a
call. -/
inductive Piece where
  | own (i : Instr)
  | copy (function : String) (body : List Piece)

namespace Piece

mutual

/-- The instructions of a piece. -/
def code : Piece → List Instr
  | own i => [i]
  | copy _ body => flatten body

/-- The instructions of pieces, in order. -/
def flatten : List Piece → List Instr
  | [] => []
  | p :: ps => p.code ++ flatten ps

end

@[simp] theorem code_own (i : Instr) : (own i).code = [i] := by simp [code]

@[simp] theorem code_copy (f : String) (body : List Piece) :
    (copy f body).code = flatten body := by simp [code]

@[simp] theorem flatten_nil : flatten [] = [] := by simp [flatten]

@[simp] theorem flatten_cons (p : Piece) (ps : List Piece) :
    flatten (p :: ps) = p.code ++ flatten ps := by simp [flatten]

@[simp] theorem flatten_append (ps qs : List Piece) :
    flatten (ps ++ qs) = flatten ps ++ flatten qs := by
  induction ps with
  | nil => simp
  | cons p ps ih => simp [ih]

@[simp] theorem flatten_map_own (is : List Instr) : flatten (is.map own) = is := by
  induction is with
  | nil => simp
  | cons i is ih => simp [ih]

end Piece

open Piece (flatten own)

/-! ## Scopes -/

/-- What lowering depends on besides the tree: the next number of a control structure, and the
outline of each declared function. -/
structure Scope where
  nextId : Nat := 0
  functions : String → Option (List Piece) := fun _ => none

namespace Scope

/-- The scope after a number has been taken. -/
def next (c : Scope) : Scope := { c with nextId := c.nextId + 1 }

/-- The scope after a declaration. -/
def declare (c : Scope) (f : String) (ps : List Piece) : Scope :=
  { c with functions := Function.update c.functions f (some ps) }

@[simp] theorem next_nextId (c : Scope) : c.next.nextId = c.nextId + 1 := rfl

@[simp] theorem next_functions (c : Scope) : c.next.functions = c.functions := rfl

@[simp] theorem declare_nextId (c : Scope) (f : String) (ps : List Piece) :
    (c.declare f ps).nextId = c.nextId := rfl

theorem declare_functions (c : Scope) (f : String) (ps : List Piece) :
    (c.declare f ps).functions = Function.update c.functions f (some ps) := rfl

/-- The scope of a generator: the number is the same, and so is the code of each function. -/
structure Describes (c : Scope) (g : Generator) : Prop where
  nextId : g.nextId = c.nextId
  functions : ∀ f, g.functions[f]? = (c.functions f).map flatten

/-- The buffer plays no part in the scope. -/
theorem Describes.withCode {c : Scope} {g : Generator} (hg : c.Describes g) (code : List Instr) :
    c.Describes { g with code := code } :=
  ⟨hg.nextId, hg.functions⟩

theorem Describes.declare {c : Scope} {g : Generator} (hg : c.Describes g) (f : String)
    (ps : List Piece) :
    (c.declare f ps).Describes { g with functions := g.functions.insert f (flatten ps) } := by
  refine ⟨hg.nextId, ?_⟩
  intro f'
  by_cases hf : f = f'
  · subst hf
    simp [declare_functions]
  · simp [declare_functions, Std.TreeMap.getElem?_insert, hf, Ne.symm hf, hg.functions]

theorem Describes.next {c : Scope} {g : Generator} (hg : c.Describes g) (code : List Instr) :
    c.next.Describes { g with code := code, nextId := g.nextId + 1 } :=
  ⟨congrArg (· + 1) hg.nextId, hg.functions⟩

end Scope

/-- The statements of a body, if it has any. -/
def Body.statements? : Body → Option (List Stmt)
  | block statements | program statements => some statements
  | foreign _ => none

/-! ## The code of each construct -/

/-- The code that saves a register on the memory bank. -/
def pushCode (reg : String) : List Instr :=
  [.write reg Machine.memoryBank Machine.stackPtr, .op "add" Machine.stackPtr Machine.stackPtr "1"]

/-- The code that loads a register with the value that was saved last. -/
def popCode (reg : String) : List Instr :=
  [.op "sub" Machine.stackPtr Machine.stackPtr "1", .read reg Machine.memoryBank Machine.stackPtr]

/-- The code that moves a value from the accumulator to its destination. -/
def Dest.settled : Dest → List Piece
  | acc => []
  | var name => [own (.set name Machine.acc)]

/-- `e.Lowers functions dest ps`: with the given functions, the code that brings the value of `e`
to `dest` has the outline `ps`. -/
inductive Expr.Lowers (functions : String → Option (List Piece)) :
    Expr → Dest → List Piece → Prop where
  | atom (he : Expr.atom? e = some text) :
      Expr.Lowers functions e dest [own (.set dest.operand text)]
  | call (hf : functions f = some body) :
      Expr.Lowers functions (.call f) dest (.copy f body :: dest.settled)
  | paren (h : Expr.Lowers functions e .acc ps) :
      Expr.Lowers functions (.paren e) dest (ps ++ dest.settled)
  | unaryAtom (he : Expr.atom? e = some text) :
      Expr.Lowers functions (.unary (.unary op) e) dest (own (op.instr text) :: dest.settled)
  | unary (he : Expr.atom? e = none) (h : Expr.Lowers functions e .acc ps) :
      Expr.Lowers functions (.unary (.unary op) e) dest
        (ps ++ own (op.instr Machine.acc) :: dest.settled)
  | binaryAtoms (hl : Expr.atom? l = some left) (hr : Expr.atom? r = some right) :
      Expr.Lowers functions (.binary (.binary op) l r) dest
        [own (.op op.mnemonic dest.operand left right)]
  | binaryRight (hl : Expr.atom? l = some left) (hr : Expr.atom? r = none)
      (h : Expr.Lowers functions r .acc ps) :
      Expr.Lowers functions (.binary (.binary op) l r) dest
        (ps ++ [own (.op op.mnemonic dest.operand left Machine.acc)])
  | binaryLeft (hl : Expr.atom? l = none) (hr : Expr.atom? r = some right)
      (h : Expr.Lowers functions l .acc ps) :
      Expr.Lowers functions (.binary (.binary op) l r) dest
        (ps ++ [own (.op op.mnemonic dest.operand Machine.acc right)])
  | binary (hl : Expr.atom? l = none) (hr : Expr.atom? r = none)
      (h : Expr.Lowers functions l .acc ps) (h' : Expr.Lowers functions r .acc qs) :
      Expr.Lowers functions (.binary (.binary op) l r) dest
        (ps ++ (pushCode Machine.acc).map own ++ qs ++ (popCode Machine.regB).map own ++
          [own (.op op.mnemonic dest.operand Machine.regB Machine.acc)])
  | assign (h : Expr.Lowers functions e (.var x) ps) :
      Expr.Lowers functions (.assign x e) dest (ps ++ dest.settled)
  | updateAtom (he : Expr.atom? e = some text) :
      Expr.Lowers functions (.update (.update op) x e) dest
        (own (.op op.mnemonic x x text) :: dest.settled)
  | update (he : Expr.atom? e = none) (h : Expr.Lowers functions e .acc ps) :
      Expr.Lowers functions (.update (.update op) x e) dest
        (ps ++ own (.op op.mnemonic x x Machine.acc) :: dest.settled)
  | sensor :
      Expr.Lowers functions (.sensor block attr) dest
        (own (.sensor Machine.acc block ("@" ++ attr)) :: dest.settled)

/-- The code that prints the values of expressions in order. -/
inductive Expr.LowersPrint (functions : String → Option (List Piece)) :
    List Expr → List Piece → Prop where
  | nil : Expr.LowersPrint functions [] []
  | atom (he : Expr.atom? e = some text) (h : Expr.LowersPrint functions args ps) :
      Expr.LowersPrint functions (e :: args) (own (.print text) :: ps)
  | computed (he : Expr.atom? e = none) (h : Expr.Lowers functions e .acc ps)
      (h' : Expr.LowersPrint functions args qs) :
      Expr.LowersPrint functions (e :: args) (ps ++ own (.print Machine.acc) :: qs)

/-- `Stmt.Lowers c ss ps c'`: in scope `c` the statements `ss` have the outline `ps`, and leave
the scope `c'`. A single statement is a list of one, so that one induction covers both. -/
inductive Stmt.Lowers : Scope → List Stmt → List Piece → Scope → Prop where
  | nil : Stmt.Lowers c [] [] c
  | cons {c c₁ c₂ : Scope} {s t : Stmt} {rest : List Stmt} {ps qs : List Piece}
      (h : Stmt.Lowers c [s] ps c₁) (h' : Stmt.Lowers c₁ (t :: rest) qs c₂) :
      Stmt.Lowers c (s :: t :: rest) (ps ++ qs) c₂
  | block (h : Stmt.Lowers c ss ps c') : Stmt.Lowers c [.block ss] ps c'
  | expr (h : Expr.Lowers c.functions e .acc ps) : Stmt.Lowers c [.expr e] ps c
  | print (h : Expr.LowersPrint c.functions args ps) :
      Stmt.Lowers c [.print args] (ps ++ [own (.printFlush Machine.message)]) c
  | draw (h : Instr.ofDrawing args = .ok i) : Stmt.Lowers c [.draw args] [own i] c
  | drawFlush : Stmt.Lowers c [.drawFlush] [own (.drawFlush Machine.display)] c
  | asm (h : Instr.ofLine (between source) = .ok i) : Stmt.Lowers c [.asm source] [own i] c
  | function {c c' : Scope} {f : String} {body : Body} {ss : List Stmt} {ps : List Piece}
      (hb : body.statements? = some ss) (h : Stmt.Lowers c ss ps c') :
      Stmt.Lowers c [.function f body] [] (c'.declare f ps)
  | ifThen {c c' : Scope} {cond : Expr} {body : Body} {ss : List Stmt} {ps qs : List Piece}
      (hc : cond.Lowers c.functions .acc ps) (hb : body.statements? = some ss)
      (h : Stmt.Lowers c.next ss qs c') :
      Stmt.Lowers c [.ifThen cond body]
        (ps ++ own (.gotoUnless (.label (ifLabel c.nextId))) :: qs ++
          [own (.label (ifLabel c.nextId))]) c'
  | ifElse {c c₁ c₂ : Scope} {cond : Expr} {body body' : Body} {ss ss' : List Stmt}
      {ps qs qs' : List Piece} (hc : cond.Lowers c.functions .acc ps)
      (hb : body.statements? = some ss) (hb' : body'.statements? = some ss')
      (h : Stmt.Lowers c.next ss qs c₁)
      (h' : Stmt.Lowers c₁ ss' qs' c₂) :
      Stmt.Lowers c [.ifElse cond body body']
        (ps ++ own (.gotoUnless (.label (ifLabel c.nextId))) :: qs ++
          own (.goto (.label (contLabel c.nextId))) :: own (.label (ifLabel c.nextId)) :: qs' ++
          [own (.label (contLabel c.nextId))]) c₂
  | whileDo {c c' : Scope} {cond : Expr} {body : Body} {ss : List Stmt} {ps qs : List Piece}
      (hc : cond.Lowers c.functions .acc ps) (hb : body.statements? = some ss)
      (h : Stmt.Lowers c.next ss qs c') :
      Stmt.Lowers c [.whileDo cond body]
        (own (.label (whileLabel c.nextId)) :: ps ++
          own (.gotoUnless (.label (contLabel c.nextId))) :: qs ++
          [own (.goto (.label (whileLabel c.nextId))), own (.label (contLabel c.nextId))]) c'
  | label : Stmt.Lowers c [.label name] [own (.label name)] c
  | goto : Stmt.Lowers c [.goto name] [own (.goto (.label name))] c

theorem Stmt.Lowers.cons' (h : Stmt.Lowers c [s] ps c₁) (h' : Stmt.Lowers c₁ rest qs c₂) :
    Stmt.Lowers c (s :: rest) (ps ++ qs) c₂ := by
  cases rest with
  | nil => cases h'; simpa using h
  | cons t rest => exact .cons h h'

/-! ## Runs of the generator -/

theorem Gen.run_bind_ok {x : Gen α} {f : α → Gen β} {g g' : Generator} {b : β} :
    (x >>= f).run g = .ok b g' ↔ ∃ a g₁, x.run g = .ok a g₁ ∧ (f a).run g₁ = .ok b g' := by
  rw [EStateM.run_bind]
  cases x.run g with
  | ok a g₁ =>
    constructor
    · intro h
      exact ⟨a, g₁, rfl, h⟩
    · rintro ⟨_, _, ⟨⟩, h⟩
      exact h
  | error fault g₁ => simp

theorem Gen.run_ofExcept_ok {r : Except Fault α} {g g' : Generator} {a : α} :
    (ofExcept r : Gen α).run g = .ok a g' ↔ r = .ok a ∧ g' = g := by
  cases r with
  | ok b => simp [ofExcept, eq_comm]
  | error fault =>
    have hrun : (ofExcept (.error fault) : Gen α).run g = .error fault g := rfl
    simp [hrun]

theorem Gen.run_lookup_ok {g g' : Generator} {name : String} {code : List Instr} :
    (lookup name).run g = .ok code g' ↔ g.functions[name]? = some code ∧ g' = g := by
  cases h : g.functions[name]? with
  | none => simp [run_lookup_of_none g h]
  | some body => simp [run_lookup_of_some g h, eq_comm]

theorem Dest.run_settle (dest : Dest) (g : Generator) :
    dest.settle.run g = .ok () { g with code := g.code ++ flatten dest.settled } := by
  cases dest with
  | acc => simp [settle, settled]
  | var name => simp [settle, settled]

namespace Expr

/-- What an operand comes to: nothing is emitted for an atom. -/
theorem run_operand_ok {e : Expr} {act : Gen Unit} {g g' : Generator} {arg : String} :
    (e.operand act).run g = .ok arg g' ↔
      (e.atom? = some arg ∧ g' = g) ∨
        (e.atom? = none ∧ arg = Machine.acc ∧ act.run g = .ok () g') := by
  cases he : e.atom? with
  | some text => simp [operand, he, eq_comm]
  | none =>
    simp only [operand, he, run_bind_ok, EStateM.run_pure]
    constructor
    · rintro ⟨⟨⟩, g₁, h, ⟨⟩⟩
      exact .inr ⟨trivial, rfl, h⟩
    · rintro (⟨⟨⟩, -⟩ | ⟨-, rfl, h⟩)
      exact ⟨(), g', h, rfl⟩

variable {c : Scope} {g g' : Generator}

theorem run_operand_atom {e : Expr} {act : Gen Unit} (he : e.atom? = some text) :
    (e.operand act).run g = .ok text g :=
  run_operand_ok.mpr (.inl ⟨he, rfl⟩)

theorem run_operand_computed {e : Expr} {act : Gen Unit} (he : e.atom? = none)
    (h : act.run g = .ok () g') : (e.operand act).run g = .ok Machine.acc g' :=
  run_operand_ok.mpr (.inr ⟨he, rfl, h⟩)

/-- An expression with an outline is lowered: the generator appends the code of the outline and
changes nothing else. -/
theorem Lowers.run {e : Expr} (h : e.Lowers c.functions dest ps) {g : Generator}
    (hg : c.Describes g) :
    (e.lowerTo dest).run g = .ok () { g with code := g.code ++ flatten ps } := by
  induction h generalizing g with
  | @atom e _ dest he =>
    cases e with
    | literal | name => cases he; simp [lowerTo]
    | _ => cases he
  | @call f body dest hf =>
    have hg' : g.functions[f]? = some (flatten body) := by rw [hg.functions, hf]; rfl
    simp [lowerTo, run_lookup_of_some g hg', Dest.run_settle]
  | paren _ ih => simp [lowerTo, ih hg, Dest.run_settle]
  | unaryAtom he => simp [lowerTo, run_operand_atom he, Operator.asUnary, Dest.run_settle, ofExcept]
  | unary he _ ih =>
    simp [lowerTo, run_operand_computed he (ih hg), Operator.asUnary, Dest.run_settle, ofExcept]
  | binaryAtoms hl hr => simp [lowerTo, operands, hl, hr, Operator.asBinary, ofExcept]
  | binaryRight hl hr _ ih | binaryLeft hl hr _ ih =>
    simp [lowerTo, operands, hl, hr, Operator.asBinary, ofExcept, ih hg]
  | binary hl hr _ _ ih ih' =>
    simp [lowerTo, operands, hl, hr, Operator.asBinary, ofExcept, ih hg, ih' (hg.withCode _), push,
      pop, pushCode, popCode]
  | assign _ ih => simp [lowerTo, ih hg, Dest.run_settle]
  | updateAtom he =>
    simp [lowerTo, run_operand_atom he, Operator.asUpdate, Dest.run_settle, ofExcept]
  | update he _ ih =>
    simp [lowerTo, run_operand_computed he (ih hg), Operator.asUpdate, Dest.run_settle, ofExcept]
  | sensor => simp [lowerTo, Dest.run_settle]

/-- An expression that is lowered has an outline. -/
theorem lowers_of_run {e : Expr} (hg : c.Describes g) (h : (e.lowerTo dest).run g = .ok () g') :
    ∃ ps, e.Lowers c.functions dest ps ∧ g' = { g with code := g.code ++ flatten ps } := by
  induction e generalizing dest g g' with
  | literal text | name text =>
    cases h
    exact ⟨_, .atom rfl, by simp⟩
  | bare text | foreign kind => simp [lowerTo] at h
  | call f =>
    simp only [lowerTo, run_bind_ok, run_lookup_ok, run_emitAll] at h
    obtain ⟨code, _, ⟨hf, rfl⟩, ⟨⟩, _, ⟨⟩, h⟩ := h
    rw [hg.functions, Option.map_eq_some_iff] at hf
    obtain ⟨body, hf, rfl⟩ := hf
    rw [Dest.run_settle] at h
    cases h
    exact ⟨_, .call hf, by simp⟩
  | paren e ih =>
    simp only [lowerTo, run_bind_ok] at h
    obtain ⟨⟨⟩, _, h, hs⟩ := h
    obtain ⟨ps, he, rfl⟩ := ih hg h
    rw [Dest.run_settle] at hs
    cases hs
    exact ⟨_, .paren he, by simp⟩
  | unary slot e ih =>
    simp only [lowerTo, run_bind_ok, run_operand_ok, run_ofExcept_ok, run_emit,
      Operator.asUnary_eq_ok] at h
    obtain ⟨arg, _, ho, op, _, ⟨rfl, rfl⟩, ⟨⟩, _, ⟨⟩, hs⟩ := h
    rw [Dest.run_settle] at hs
    cases hs
    rcases ho with ⟨he, rfl⟩ | ⟨he, rfl, h⟩
    · exact ⟨_, .unaryAtom he, by simp⟩
    · obtain ⟨ps, hp, rfl⟩ := ih hg h
      exact ⟨_, .unary he hp, by simp⟩
  | binary slot l r ihl ihr =>
    simp only [lowerTo, run_bind_ok, run_ofExcept_ok, Operator.asBinary_eq_ok] at h
    obtain ⟨op, _, ⟨rfl, rfl⟩, ⟨left, right⟩, g₁, ho, he⟩ := h
    cases he
    cases hl : l.atom? with
    | some left =>
      cases hr : r.atom? with
      | some right =>
        simp only [operands, hl, hr, EStateM.run_pure] at ho
        cases ho
        exact ⟨_, .binaryAtoms hl hr, by simp⟩
      | none =>
        simp only [operands, hl, hr, run_bind_ok, EStateM.run_pure] at ho
        obtain ⟨⟨⟩, _, h, ⟨⟩⟩ := ho
        obtain ⟨ps, hp, rfl⟩ := ihr hg h
        exact ⟨_, .binaryRight hl hr hp, by simp⟩
    | none =>
      cases hr : r.atom? with
      | some right =>
        simp only [operands, hl, hr, run_bind_ok, EStateM.run_pure] at ho
        obtain ⟨⟨⟩, _, h, ⟨⟩⟩ := ho
        obtain ⟨ps, hp, rfl⟩ := ihl hg h
        exact ⟨_, .binaryLeft hl hr hp, by simp⟩
      | none =>
        simp only [operands, hl, hr, run_bind_ok, push, pop, run_emitAll, EStateM.run_pure] at ho
        obtain ⟨⟨⟩, _, h, ⟨⟩, _, ⟨⟩, ⟨⟩, _, h', ⟨⟩, _, ⟨⟩, ⟨⟩⟩ := ho
        obtain ⟨ps, hp, rfl⟩ := ihl hg h
        obtain ⟨qs, hq, rfl⟩ := ihr (hg.withCode _) h'
        exact ⟨_, .binary hl hr hp hq, by simp [pushCode, popCode]⟩
  | assign x e ih =>
    simp only [lowerTo, run_bind_ok] at h
    obtain ⟨⟨⟩, _, h, hs⟩ := h
    obtain ⟨ps, he, rfl⟩ := ih hg h
    rw [Dest.run_settle] at hs
    cases hs
    exact ⟨_, .assign he, by simp⟩
  | update slot x e ih =>
    simp only [lowerTo, run_bind_ok, run_operand_ok, run_ofExcept_ok, run_emit,
      Operator.asUpdate_eq_ok] at h
    obtain ⟨op, _, ⟨rfl, rfl⟩, arg, _, ho, ⟨⟩, _, ⟨⟩, hs⟩ := h
    rw [Dest.run_settle] at hs
    cases hs
    rcases ho with ⟨he, rfl⟩ | ⟨he, rfl, h⟩
    · exact ⟨_, .updateAtom he, by simp⟩
    · obtain ⟨ps, hp, rfl⟩ := ih hg h
      exact ⟨_, .update he hp, by simp⟩
  | sensor block attr =>
    simp only [lowerTo, run_bind_ok, run_emit] at h
    obtain ⟨⟨⟩, _, ⟨⟩, hs⟩ := h
    rw [Dest.run_settle] at hs
    cases hs
    exact ⟨_, .sensor, by simp⟩

/-- Lowering an expression succeeds just if the expression has an outline. -/
theorem run_lowerTo_iff (hg : c.Describes g) {e : Expr} :
    (e.lowerTo dest).run g = .ok () g' ↔
      ∃ ps, e.Lowers c.functions dest ps ∧ g' = { g with code := g.code ++ flatten ps } := by
  refine ⟨lowers_of_run hg, ?_⟩
  rintro ⟨ps, h, rfl⟩
  exact h.run hg

theorem LowersPrint.run (h : LowersPrint c.functions args ps) {g : Generator}
    (hg : c.Describes g) :
    (forM args lowerPrint : Gen Unit).run g = .ok () { g with code := g.code ++ flatten ps } := by
  induction h generalizing g with
  | nil => simp
  | atom he _ ih => simp [lowerPrint, run_operand_atom he, ih (hg.withCode _)]
  | computed he h _ ih =>
    simp [lowerPrint, lower, run_operand_computed he (h.run hg), ih (hg.withCode _)]

theorem lowersPrint_of_run {args : List Expr} (hg : c.Describes g)
    (h : (forM args lowerPrint : Gen Unit).run g = .ok () g') :
    ∃ ps, LowersPrint c.functions args ps ∧ g' = { g with code := g.code ++ flatten ps } := by
  induction args generalizing g with
  | nil =>
    cases h
    exact ⟨_, .nil, by simp⟩
  | cons e args ih =>
    simp only [List.forM_cons, lowerPrint, bind_assoc, run_bind_ok, run_operand_ok, run_emit,
      lower] at h
    obtain ⟨arg, _, ho, ⟨⟩, _, ⟨⟩, h⟩ := h
    rcases ho with ⟨he, rfl⟩ | ⟨he, rfl, ho⟩
    · obtain ⟨ps, hp, rfl⟩ := ih (hg.withCode _) h
      exact ⟨_, .atom he hp, by simp⟩
    · obtain ⟨ps, hp, rfl⟩ := lowers_of_run hg ho
      obtain ⟨qs, hq, rfl⟩ := ih (hg.withCode _) h
      exact ⟨_, .computed he hp hq, by simp⟩

end Expr

theorem Body.lower_of_statements? {body : Body} (hb : body.statements? = some ss) :
    body.lower = Stmt.lowerAll ss := by
  cases body with
  | block | program => cases hb; rw [Body.lower]
  | foreign => cases hb

namespace Stmt

theorem run_lowerAll_singleton (s : Stmt) (g : Generator) :
    (lowerAll [s]).run g = s.lower.run g := by
  simp only [lowerAll, EStateM.run_bind, EStateM.run_pure]
  cases s.lower.run g <;> rfl

private theorem emitted {c : Scope} {g : Generator} {s : Stmt} {ps : List Piece}
    (hg : c.Describes g) (h : s.lower.run g = .ok () { g with code := g.code ++ flatten ps }) :
    ∃ g', (lowerAll [s]).run g = .ok () g' ∧ g'.code = g.code ++ flatten ps ∧ c.Describes g' :=
  ⟨_, (run_lowerAll_singleton s g).trans h, rfl, hg.withCode _⟩

/-- Statements with an outline are lowered: the generator appends the code of the outline and
comes to the scope that is left. -/
theorem Lowers.run (h : Lowers c ss ps c') {g : Generator} (hg : c.Describes g) :
    ∃ g', (lowerAll ss).run g = .ok () g' ∧ g'.code = g.code ++ flatten ps ∧ c'.Describes g' := by
  induction h generalizing g with
  | nil => exact ⟨g, by simp [lowerAll], by simp, hg⟩
  | cons _ _ ih ih' =>
    obtain ⟨g₁, hr, hc, hg₁⟩ := ih hg
    obtain ⟨g₂, hr', hc', hg₂⟩ := ih' hg₁
    rw [run_lowerAll_singleton] at hr
    refine ⟨g₂, ?_, by simp [hc, hc'], hg₂⟩
    rw [lowerAll, EStateM.run_bind, hr]
    exact hr'
  | block _ ih =>
    obtain ⟨g₁, hr, h⟩ := ih hg
    exact ⟨g₁, by rwa [run_lowerAll_singleton, lower], h⟩
  | expr h => exact emitted hg (by rw [lower, Expr.lower, h.run hg])
  | print h => exact emitted hg (by simp [lower, h.run hg])
  | draw h | asm h => exact emitted hg (by simp [lower, h, ofExcept])
  | drawFlush | label | goto => exact emitted hg (by simp [lower])
  | @function c c' f body ss ps hb _ ih =>
    obtain ⟨g₁, hr, hc, hg₁⟩ := ih (hg.withCode [])
    refine ⟨_, ?_, by simp, (hg₁.withCode g.code).declare f ps⟩
    rw [run_lowerAll_singleton, lower, Body.lower_of_statements? hb]
    simp [run_detached, hr, hc]
  | @ifThen c c' cond body ss ps qs hc hb _ ih =>
    obtain ⟨g₁, hr, hcode, hg₁⟩ := ih (hg.next (g.code ++ flatten ps ++
      [.gotoUnless (.label (ifLabel c.nextId))]))
    refine ⟨{ g₁ with code := g₁.code ++ [.label (ifLabel c.nextId)] }, ?_, by simp [hcode],
      hg₁.withCode _⟩
    rw [hg.nextId, List.append_assoc] at hr
    rw [run_lowerAll_singleton, lower, Body.lower_of_statements? hb]
    simp [Expr.lower, hc.run hg, hg.nextId, hr]
  | @ifElse c c₁ c₂ cond body body' ss ss' ps qs qs' hc hb hb' _ _ ih ih' =>
    obtain ⟨g₁, hr, hcode, hg₁⟩ := ih (hg.next (g.code ++ flatten ps ++
      [.gotoUnless (.label (ifLabel c.nextId))]))
    obtain ⟨g₂, hr', hcode', hg₂⟩ := ih' (hg₁.withCode (g₁.code ++
      [.goto (.label (contLabel c.nextId)), .label (ifLabel c.nextId)]))
    refine ⟨{ g₂ with code := g₂.code ++ [.label (contLabel c.nextId)] }, ?_,
      by simp [hcode, hcode'], hg₂.withCode _⟩
    rw [hg.nextId, List.append_assoc] at hr
    rw [run_lowerAll_singleton, lower, Body.lower_of_statements? hb, Body.lower_of_statements? hb']
    simp [Expr.lower, hc.run hg, hg.nextId, hr, hr']
  | @whileDo c c' cond body ss ps qs hc hb _ ih =>
    obtain ⟨g₁, hr, hcode, hg₁⟩ := ih (hg.next (g.code ++ .label (whileLabel c.nextId) ::
      flatten ps ++ [.gotoUnless (.label (contLabel c.nextId))]))
    refine ⟨{ g₁ with code := g₁.code ++
      [.goto (.label (whileLabel c.nextId)), .label (contLabel c.nextId)] }, ?_, by simp [hcode],
      hg₁.withCode _⟩
    have hcond := hc.run (c := c.next) (hg.next (g.code ++ [.label (whileLabel c.nextId)]))
    rw [hg.nextId] at hcond
    rw [hg.nextId, List.append_assoc, List.cons_append] at hr
    rw [run_lowerAll_singleton, lower, Body.lower_of_statements? hb]
    simp [Expr.lower, hcond, hg.nextId, hr]

mutual

private theorem lowers_of_run_lower (s : Stmt) {c : Scope} {g g' : Generator} (hg : c.Describes g)
    (h : s.lower.run g = .ok () g') :
    ∃ ps c', Lowers c [s] ps c' ∧ g'.code = g.code ++ flatten ps ∧ c'.Describes g' := by
  match s with
  | .block ss =>
    rw [lower] at h
    obtain ⟨ps, c', hl, hr⟩ := lowers_of_run ss hg h
    exact ⟨ps, c', .block hl, hr⟩
  | .expr e =>
    rw [lower, Expr.lower] at h
    obtain ⟨ps, hp, rfl⟩ := Expr.lowers_of_run hg h
    exact ⟨ps, c, .expr hp, rfl, hg.withCode _⟩
  | .print args =>
    simp only [lower, List.forM_eq_forM, run_bind_ok, run_emit] at h
    obtain ⟨⟨⟩, _, h, ⟨⟩⟩ := h
    obtain ⟨ps, hp, rfl⟩ := Expr.lowersPrint_of_run hg h
    exact ⟨_, c, .print hp, by simp, hg.withCode _⟩
  | .draw args =>
    simp only [lower, run_bind_ok, run_ofExcept_ok, run_emit] at h
    obtain ⟨i, _, ⟨hi, rfl⟩, ⟨⟩⟩ := h
    exact ⟨_, c, .draw hi, by simp, hg.withCode _⟩
  | .drawFlush =>
    rw [lower] at h
    cases h
    exact ⟨_, c, .drawFlush, by simp, hg.withCode _⟩
  | .asm source =>
    simp only [lower, run_bind_ok, run_ofExcept_ok, run_emit] at h
    obtain ⟨i, _, ⟨hi, rfl⟩, ⟨⟩⟩ := h
    exact ⟨_, c, .asm hi, by simp, hg.withCode _⟩
  | .function f body =>
    simp only [lower, run_bind_ok, run_detached, run_declare] at h
    obtain ⟨code, _, h, ⟨⟩⟩ := h
    split at h
    · rename_i hr
      cases h
      obtain ⟨ss, hb, ps, c₁, hl, hc, hg₁⟩ := lowers_of_run_body body (hg.withCode []) hr
      refine ⟨[], _, .function hb hl, by simp, ?_⟩
      rw [hc]
      exact (hg₁.withCode _).declare f ps
    · cases h
  | .ifThen cond body =>
    simp only [lower, run_bind_ok, Expr.lower, run_freshId, run_emit] at h
    obtain ⟨⟨⟩, _, hr, _, _, ⟨⟩, ⟨⟩, _, ⟨⟩, ⟨⟩, g₁, hb, ⟨⟩⟩ := h
    obtain ⟨ps, hp, rfl⟩ := Expr.lowers_of_run hg hr
    obtain ⟨ss, hb, qs, c₁, hl, hc, hg₁⟩ := lowers_of_run_body body (hg.next _) hb
    exact ⟨_, c₁, .ifThen hp hb hl, by simp [hc, hg.nextId], hg₁.withCode _⟩
  | .ifElse cond body body' =>
    simp only [lower, run_bind_ok, Expr.lower, run_freshId, run_emit] at h
    obtain ⟨⟨⟩, _, hr, _, _, ⟨⟩, ⟨⟩, _, ⟨⟩, ⟨⟩, g₁, hb, ⟨⟩, _, ⟨⟩, ⟨⟩, _, ⟨⟩, ⟨⟩, g₂, hb', ⟨⟩⟩ := h
    obtain ⟨ps, hp, rfl⟩ := Expr.lowers_of_run hg hr
    obtain ⟨ss, hb, qs, c₁, hl, hc, hg₁⟩ := lowers_of_run_body body (hg.next _) hb
    obtain ⟨ss', hb', qs', c₂, hl', hc', hg₂⟩ := lowers_of_run_body body' (hg₁.withCode _) hb'
    exact ⟨_, c₂, .ifElse hp hb hb' hl hl', by simp [hc, hc', hg.nextId], hg₂.withCode _⟩
  | .whileDo cond body =>
    simp only [lower, run_bind_ok, Expr.lower, run_freshId, run_emit] at h
    obtain ⟨_, _, ⟨⟩, ⟨⟩, _, ⟨⟩, ⟨⟩, _, hr, ⟨⟩, _, ⟨⟩, ⟨⟩, g₁, hb, ⟨⟩, _, ⟨⟩, ⟨⟩⟩ := h
    obtain ⟨ps, hp, rfl⟩ := Expr.lowers_of_run (hg.next _) hr
    obtain ⟨ss, hb, qs, c₁, hl, hc, hg₁⟩ := lowers_of_run_body body ((hg.next _).withCode _) hb
    exact ⟨_, c₁, .whileDo hp hb hl, by simp [hc, hg.nextId], hg₁.withCode _⟩
  | .label name =>
    rw [lower] at h
    cases h
    exact ⟨_, c, .label, by simp, hg.withCode _⟩
  | .goto name =>
    rw [lower] at h
    cases h
    exact ⟨_, c, .goto, by simp, hg.withCode _⟩
  | .foreign kind => simp [lower] at h

/-- Statements that are lowered have an outline. -/
theorem lowers_of_run (ss : List Stmt) {c : Scope} {g g' : Generator} (hg : c.Describes g)
    (h : (lowerAll ss).run g = .ok () g') :
    ∃ ps c', Lowers c ss ps c' ∧ g'.code = g.code ++ flatten ps ∧ c'.Describes g' := by
  match ss with
  | [] =>
    cases h
    exact ⟨[], c, .nil, by simp, hg⟩
  | s :: rest =>
    rw [lowerAll, run_bind_ok] at h
    obtain ⟨⟨⟩, g₁, h, h'⟩ := h
    obtain ⟨ps, c₁, hl, hc, hg₁⟩ := lowers_of_run_lower s hg h
    obtain ⟨qs, c₂, hl', hc', hg₂⟩ := lowers_of_run rest hg₁ h'
    exact ⟨ps ++ qs, c₂, hl.cons' hl', by simp [hc, hc'], hg₂⟩

private theorem lowers_of_run_body (body : Body) {c : Scope} {g g' : Generator}
    (hg : c.Describes g) (h : body.lower.run g = .ok () g') :
    ∃ ss, body.statements? = some ss ∧
      ∃ ps c', Lowers c ss ps c' ∧ g'.code = g.code ++ flatten ps ∧ c'.Describes g' := by
  match body with
  | .block ss | .program ss =>
    rw [Body.lower] at h
    exact ⟨ss, rfl, lowers_of_run ss hg h⟩
  | .foreign kind => simp [Body.lower] at h

end

end Stmt

/-! ## Programs -/

/-- The outline of a whole program, with the preamble before and the halt after it. -/
def Body.Outline (program : Body) (ps : List Piece) : Prop :=
  ∃ ss qs c', program = .program ss ∧ Stmt.Lowers {} ss qs c' ∧
    ps = preamble.map own ++ qs ++ [own .halt]

theorem Scope.describes_initial : Scope.Describes {} {} :=
  ⟨rfl, fun _ => by simp⟩

/-- Generating from a program: the statements are lowered behind the preamble. -/
theorem codeOf_program (ss : List Stmt) :
    codeOf (.program ss) =
      match (Stmt.lowerAll ss).run { code := preamble } with
      | .ok _ g => .ok (g.code ++ [.halt])
      | .error fault _ => .error fault := by
  simp only [codeOf, Body.generate, EStateM.run_bind, run_emitAll, run_emit, List.nil_append,
    EStateM.run_get, EStateM.run_pure]
  cases (Stmt.lowerAll ss).run { code := preamble } <;> rfl

/-- The code of a program is that of its outline; a program without an outline has no code. -/
theorem codeOf_eq_ok_iff {program : Body} :
    codeOf program = .ok code ↔ ∃ ps, program.Outline ps ∧ code = flatten ps := by
  constructor
  · intro h
    cases program with
    | block | foreign => cases h
    | program ss =>
      rw [codeOf_program] at h
      split at h
      · rename_i g hr
        cases h
        obtain ⟨ps, c', hl, hc, -⟩ :=
          Stmt.lowers_of_run ss (Scope.describes_initial.withCode preamble) hr
        exact ⟨_, ⟨ss, ps, c', rfl, hl, rfl⟩, by simp [hc]⟩
      · cases h
  · rintro ⟨_, ⟨ss, qs, c', rfl, hl, rfl⟩, rfl⟩
    obtain ⟨g', hr, hc, -⟩ := hl.run (Scope.describes_initial.withCode preamble)
    simp [codeOf_program, hr, hc]

end LogicAsm
