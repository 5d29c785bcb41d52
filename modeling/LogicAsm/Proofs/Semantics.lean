import Mathlib.Logic.Function.Basic
import LogicAsm.Lowering.Stmt
import LogicAsm.Proofs.Execution

/-!
# Meaning of programs and of machine code

An engine fixes what literals, operations, conditions and sensors mean. It gives a machine that
runs code on variables and memory banks (`Engine.interp`), and it gives expressions a value
(`Expr.eval`) and statements an outcome (`Stmt.exec`). Both record what they show in a trace.

A loop need not end. `Stmt.exec` therefore takes a bound: a loop that is entered is left after
so many rounds, and the outcome is that the run was cut. A program ends if it is done for some
bound.
-/

namespace LogicAsm

/-- The names that are kept for generated code. -/
def Machine.registers : List String := stackPtr :: generalRegisters

/-! ## Engines -/

/-- What a program shows. -/
inductive Event (V : Type u) where
  | print (value : V)
  | printFlush (sink : String)
  | draw (shape : String) (args : List V)
  | drawFlush (sink : String)

/-- The values of all variables, and what has been shown so far. -/
structure World (V : Type u) where
  vars : String → V
  trace : List (Event V)

/-- The state of a machine: the variables, the trace and the cells of each memory bank. -/
structure State (V : Type u) extends World V where
  bank : String → Nat → V

/-- What texts, mnemonics and conditions mean to a machine with values in `V`. Nothing is said
of operations but that the natural numbers can be counted up and down. -/
structure Engine (V : Type u) where
  /-- The value of a text that is a literal. Any other text is a variable. -/
  literal : String → Option V
  apply : (mnemonic : String) → V → V → V
  holds : (cond : String) → V → V → Bool
  sensor : (block attr : String) → (String → V) → V
  nat : Nat → V
  /-- The cell that a value addresses. -/
  cell : V → Nat
  cell_nat : ∀ n, cell (nat n) = n
  literal_register : ∀ r ∈ Machine.registers, literal r = none
  literal_zero : literal "0" = some (nat 0)
  literal_one : literal "1" = some (nat 1)
  add_one : ∀ n, apply "add" (nat n) (nat 1) = nat (n + 1)
  sub_one : ∀ n, apply "sub" (nat (n + 1)) (nat 1) = nat n
  holds_always : ∀ v w, holds Machine.always v w = true

/-- Two stores that agree on all variables but those in `hidden`. -/
def AgreeOff (hidden : List String) (vars vars' : String → V) : Prop :=
  ∀ x, x ∉ hidden → vars x = vars' x

namespace World

/-- Something is shown. -/
def display (w : World V) (event : Event V) : World V := { w with trace := w.trace ++ [event] }

end World

namespace State

/-- A variable takes a value. -/
def store (s : State V) (x : String) (v : V) : State V :=
  { s with vars := Function.update s.vars x v }

/-- Something is shown. -/
def display (s : State V) (event : Event V) : State V := { s with trace := s.trace ++ [event] }

/-- A cell of a bank takes a value. -/
def poke (s : State V) (bank : String) (cell : Nat) (v : V) : State V :=
  { s with bank := Function.update s.bank bank (Function.update (s.bank bank) cell v) }

variable (s : State V) (x : String) (v : V)

@[simp] theorem store_vars : (s.store x v).vars = Function.update s.vars x v := rfl

@[simp] theorem store_trace : (s.store x v).trace = s.trace := rfl

@[simp] theorem store_bank : (s.store x v).bank = s.bank := rfl

@[simp] theorem display_vars (event : Event V) : (s.display event).vars = s.vars := rfl

@[simp] theorem display_trace (event : Event V) :
    (s.display event).trace = s.trace ++ [event] := rfl

@[simp] theorem display_bank (event : Event V) : (s.display event).bank = s.bank := rfl

@[simp] theorem poke_vars (cell : Nat) : (s.poke x cell v).vars = s.vars := rfl

@[simp] theorem poke_trace (cell : Nat) : (s.poke x cell v).trace = s.trace := rfl

theorem poke_bank (cell : Nat) : (s.poke x cell v).bank =
    Function.update s.bank x (Function.update (s.bank x) cell v) := rfl

end State

namespace Engine

variable (E : Engine V)

/-- The value of an operand. -/
def value (vars : String → V) (text : String) : V := (E.literal text).getD (vars text)

/-- A value that lets a branch be taken. -/
def truth (v : V) : Bool := !E.holds "equal" v (E.nat 0)

/-- Sensors do not depend on the given variables. -/
def Blind (hidden : List String) : Prop :=
  ∀ block attr vars vars', AgreeOff hidden vars vars' →
    E.sensor block attr vars = E.sensor block attr vars'

/-- The effect of an instruction that is no jump. The machine goes on neither after a halt nor
from a line it does not know. -/
def exec : Instr → State V → Option (State V)
  | .set dest text, s => some (s.store dest (E.value s.vars text))
  | .op mnemonic dest left right, s =>
    some (s.store dest (E.apply mnemonic (E.value s.vars left) (E.value s.vars right)))
  | .write text bank addr, s =>
    some (s.poke bank (E.cell (E.value s.vars addr)) (E.value s.vars text))
  | .read dest bank addr, s => some (s.store dest (s.bank bank (E.cell (E.value s.vars addr))))
  | .print text, s => some (s.display (.print (E.value s.vars text)))
  | .printFlush sink, s => some (s.display (.printFlush sink))
  | .draw shape args, s => some (s.display (.draw shape (args.map (E.value s.vars))))
  | .drawFlush sink, s => some (s.display (.drawFlush sink))
  | .sensor dest block attr, s => some (s.store dest (E.sensor block attr s.vars))
  | .jump .., _ | .rawJump .., _ | .label _, _ | .halt, _ | .raw _, _ | .foreign _, _ => none

/-- The machine of an engine. -/
def interp : Interp (State V) where
  exec := E.exec
  holds
    | .test cond left right, s => E.holds cond (E.value s.vars left) (E.value s.vars right)
    | .written _, _ => false

/-- The result of instructions that are run one after another. -/
def execAll (code : List Instr) (s : State V) : Option (State V) :=
  code.foldlM (fun s i => E.exec i s) s

@[simp] theorem execAll_nil (s : State V) : E.execAll [] s = some s := rfl

@[simp] theorem execAll_cons (i : Instr) (code : List Instr) (s : State V) :
    E.execAll (i :: code) s = (E.exec i s).bind (E.execAll code) := rfl

theorem execAll_append (code code' : List Instr) (s : State V) :
    E.execAll (code ++ code') s = (E.execAll code s).bind (E.execAll code') := by
  simp only [execAll, List.foldlM_append]
  rfl

theorem value_register {r : String} (h : r ∈ Machine.registers) (vars : String → V) :
    E.value vars r = vars r := by
  rw [value, E.literal_register r h]
  rfl

@[simp] theorem value_acc (vars : String → V) : E.value vars Machine.acc = vars Machine.acc :=
  E.value_register (by decide) vars

@[simp] theorem value_regB (vars : String → V) : E.value vars Machine.regB = vars Machine.regB :=
  E.value_register (by decide) vars

@[simp] theorem value_stackPtr (vars : String → V) :
    E.value vars Machine.stackPtr = vars Machine.stackPtr :=
  E.value_register (by decide) vars

@[simp] theorem value_zero (vars : String → V) : E.value vars "0" = E.nat 0 := by
  rw [value, E.literal_zero]
  rfl

@[simp] theorem value_one (vars : String → V) : E.value vars "1" = E.nat 1 := by
  rw [value, E.literal_one]
  rfl

/-- An operand has the same value in stores that agree on it. -/
theorem value_congr {vars vars' : String → V} {text : String} (h : vars text = vars' text) :
    E.value vars text = E.value vars' text := by
  rw [value, value, h]

end Engine

/-! ## Expressions -/

/-- An operation on one value. A sign is a factor, and a complement has no second operand. -/
def UnaryOp.apply (E : Engine V) (vars : String → V) (v : V) : UnaryOp → V
  | neg => E.apply "mul" (E.value vars "-1") v
  | bitNot => E.apply "not" v (E.value vars Machine.null)

/-- The value of an expression, from left to right, and the variables afterwards. A call has no
value of its own. -/
def Expr.eval (E : Engine V) : Expr → (String → V) → Option (V × (String → V))
  | literal text, vars | name text, vars => some (E.value vars text, vars)
  | paren e, vars => e.eval E vars
  | unary (.unary op) e, vars => do
    let (v, vars) ← e.eval E vars
    return (op.apply E vars v, vars)
  | binary (.binary op) l r, vars => do
    let (v, vars) ← l.eval E vars
    let (w, vars) ← r.eval E vars
    return (E.apply op.mnemonic v w, vars)
  | assign x e, vars => do
    let (v, vars) ← e.eval E vars
    return (v, Function.update vars x v)
  | update (.update op) x e, vars => do
    let (v, vars) ← e.eval E vars
    let u := E.apply op.mnemonic (E.value vars x) v
    return (u, Function.update vars x u)
  | sensor block attr, vars => some (E.sensor block ("@" ++ attr) vars, vars)
  | bare _, _ | call _, _ | unary _ _, _ | binary _ _ _, _ | update _ _ _, _ | foreign _, _ => none

/-! ## Statements -/

/-- How a run of statements goes. -/
inductive Outcome (V : Type u) where
  | done (w : World V)
  /-- A loop did not end within the bound. -/
  | cut (w : World V)
  /-- There is no meaning to go on with. -/
  | undefined

/-- Go on from a run that is done. -/
def Outcome.andThen (o : Outcome V) (f : World V → Outcome V) : Outcome V :=
  match o with
  | done w => f w
  | cut w => .cut w
  | undefined => .undefined

/-- A run that is done, or has no meaning. -/
def Outcome.ofOption : Option (World V) → Outcome V
  | some w => .done w
  | none => .undefined

/-- Take one of two ways by the value of a condition. -/
def Expr.branch (E : Engine V) (cond : Expr) (yes no : World V → Outcome V) (w : World V) :
    Outcome V :=
  match cond.eval E w.vars with
  | some (v, vars) => if E.truth v then yes { w with vars } else no { w with vars }
  | none => .undefined

/-- Repeat a body as long as a condition holds, at most so many times. -/
def Expr.loop (E : Engine V) (cond : Expr) (body : World V → Outcome V) :
    Nat → World V → Outcome V
  | 0, w => .cut w
  | n + 1, w => cond.branch E (fun w => (body w).andThen (cond.loop E body n)) .done w

/-- Print the values of expressions in order. -/
def Expr.printAll (E : Engine V) : List Expr → World V → Option (World V)
  | [], w => some w
  | e :: args, w => do
    let (v, vars) ← e.eval E w.vars
    printAll E args (World.display { w with vars } (.print v))

/-- Draw the shape that the first text names, with the values of the others. -/
def Expr.drawAll (E : Engine V) (args : List Expr) (w : World V) : Option (World V) :=
  match args.mapM Expr.text? with
  | some (shape :: rest) => some (w.display (.draw shape (rest.map (E.value w.vars))))
  | _ => none

mutual

/-- The outcome of a statement, if each loop that is entered may take `bound` rounds. -/
def Stmt.exec (E : Engine V) (bound : Nat) : Stmt → World V → Outcome V
  | .block statements, w => Stmt.execAll E bound statements w
  | .expr e, w => .ofOption ((e.eval E w.vars).map fun (_, vars) => { w with vars })
  | .print args, w =>
    .ofOption ((Expr.printAll E args w).map (·.display (.printFlush Machine.message)))
  | .draw args, w => .ofOption (Expr.drawAll E args w)
  | .drawFlush, w => .done (w.display (.drawFlush Machine.display))
  | .ifThen cond thenBody, w => cond.branch E (thenBody.exec E bound) .done w
  | .ifElse cond thenBody elseBody, w =>
    cond.branch E (thenBody.exec E bound) (elseBody.exec E bound) w
  | .whileDo cond body, w => cond.loop E (body.exec E bound) bound w
  | .asm _, _ | .function _ _, _ | .label _, _ | .goto _, _ | .foreign _, _ => .undefined

/-- The outcome of statements in order. -/
def Stmt.execAll (E : Engine V) (bound : Nat) : List Stmt → World V → Outcome V
  | [], w => .done w
  | s :: rest, w => (s.exec E bound w).andThen (Stmt.execAll E bound rest)

/-- The outcome of a body. -/
def Body.exec (E : Engine V) (bound : Nat) : Body → World V → Outcome V
  | .block statements, w | .program statements, w => Stmt.execAll E bound statements w
  | .foreign _, _ => .undefined

end

/-! ## Bounds

A greater bound gives no other outcome to a program that is done. -/

variable {E : Engine V}

theorem Outcome.andThen_eq_done {o : Outcome V} {f : World V → Outcome V} {w : World V} :
    o.andThen f = .done w ↔ ∃ w₁, o = .done w₁ ∧ f w₁ = .done w := by
  cases o <;> simp [andThen]

namespace Expr

variable {test : Expr} {body body' : World V → Outcome V}

theorem branch_mono {yes no yes' no' : World V → Outcome V}
    (hyes : ∀ w w', yes w = .done w' → yes' w = .done w')
    (hno : ∀ w w', no w = .done w' → no' w = .done w')
    (h : test.branch E yes no w = .done w') : test.branch E yes' no' w = .done w' := by
  unfold branch at h ⊢
  cases hv : test.eval E w.vars with
  | none =>
    rw [hv] at h
    cases h
  | some r =>
    simp only [hv] at h ⊢
    split at h
    · rename_i ht
      rw [if_pos ht]
      exact hyes _ _ h
    · rename_i ht
      rw [if_neg ht]
      exact hno _ _ h

theorem loop_mono (hbody : ∀ w w', body w = .done w' → body' w = .done w') (hmn : m ≤ n)
    (h : test.loop E body m w = .done w') : test.loop E body' n w = .done w' := by
  induction m generalizing n w w' with
  | zero => cases h
  | succ m ih =>
    obtain ⟨n, rfl⟩ : ∃ k, n = k + 1 := ⟨n - 1, by omega⟩
    rw [loop] at h ⊢
    refine branch_mono ?_ (fun _ _ h => h) h
    intro w₁ w₂ hround
    obtain ⟨w₃, hb, hrest⟩ := Outcome.andThen_eq_done.mp hround
    exact Outcome.andThen_eq_done.mpr ⟨w₃, hbody _ _ hb, ih (Nat.le_of_succ_le_succ hmn) hrest⟩

end Expr

mutual

theorem Stmt.exec_mono (hmn : m ≤ n) (s : Stmt) (w w' : World V) (h : s.exec E m w = .done w') :
    s.exec E n w = .done w' := by
  match s with
  | .block ss =>
    rw [Stmt.exec] at h ⊢
    exact Stmt.execAll_mono hmn ss w w' h
  | .expr _ | .print _ | .draw _ | .drawFlush =>
    rw [Stmt.exec] at h ⊢
    exact h
  | .ifThen test body =>
    rw [Stmt.exec] at h ⊢
    exact Expr.branch_mono (Body.exec_mono hmn body) (fun _ _ h => h) h
  | .ifElse test body body' =>
    rw [Stmt.exec] at h ⊢
    exact Expr.branch_mono (Body.exec_mono hmn body) (Body.exec_mono hmn body') h
  | .whileDo test body =>
    rw [Stmt.exec] at h ⊢
    exact Expr.loop_mono (Body.exec_mono hmn body) hmn h
  | .asm _ | .function _ _ | .label _ | .goto _ | .foreign _ =>
    rw [Stmt.exec] at h
    cases h

theorem Stmt.execAll_mono (hmn : m ≤ n) (ss : List Stmt) (w w' : World V)
    (h : Stmt.execAll E m ss w = .done w') : Stmt.execAll E n ss w = .done w' := by
  match ss with
  | [] =>
    rw [Stmt.execAll] at h ⊢
    exact h
  | s :: rest =>
    rw [Stmt.execAll, Outcome.andThen_eq_done] at h ⊢
    obtain ⟨w₁, hs, hr⟩ := h
    exact ⟨w₁, Stmt.exec_mono hmn s w w₁ hs, Stmt.execAll_mono hmn rest w₁ w' hr⟩

theorem Body.exec_mono (hmn : m ≤ n) (body : Body) (w w' : World V)
    (h : body.exec E m w = .done w') : body.exec E n w = .done w' := by
  match body with
  | .block ss | .program ss =>
    rw [Body.exec] at h ⊢
    exact Stmt.execAll_mono hmn ss w w' h
  | .foreign _ =>
    rw [Body.exec] at h
    cases h

end

end LogicAsm
