import LogicAsm.Proofs.ExprCode
import LogicAsm.Proofs.Numbers
import LogicAsm.Proofs.SavedValues

/-!
# The depth of the stack

While both operands of an operation are computed, the value of the left one is saved. Generated code
is balanced, as long as the program does not move the stack pointer itself, and the number of values
that are saved at the same time can be told from the tree and the functions that it calls
(`Stmt.Lowers.spills`). As a function is copied in the middle of what it is called from, this has to
hold of all declared functions at any time (`spill_stack_disciplined`).
-/

namespace LogicAsm

open Gen
open Piece (flatten own)

/-! ## Depth of a tree -/

/-- The names that an expression assigns. -/
def Expr.targets : Expr → List String
  | assign x e | update _ x e => x :: e.targets
  | paren e | unary _ e => e.targets
  | binary _ l r => l.targets ++ r.targets
  | literal _ | name _ | bare _ | call _ | sensor _ _ | foreign _ => []

/-- The number of values that are saved at the same time while an expression is computed. It is
given for each function by `depths`. -/
def Expr.depth (depths : String → Nat) : Expr → Nat
  | call f => depths f
  | paren e | unary _ e | assign _ e | update _ _ e => e.depth depths
  | binary _ l r =>
    if l.isAtom || r.isAtom then max (l.depth depths) (r.depth depths)
    else max (l.depth depths) (1 + r.depth depths)
  | literal _ | name _ | bare _ | sensor _ _ | foreign _ => 0

/-- The depth of expressions that are computed one after the other. -/
def Expr.depthAll (depths : String → Nat) : List Expr → Nat
  | [] => 0
  | e :: es => max (e.depth depths) (Expr.depthAll depths es)

mutual

/-- The depth of a statement, and the depths of the functions after it. -/
def Stmt.depth (depths : String → Nat) : Stmt → Nat × (String → Nat)
  | .block ss => Stmt.depthAll depths ss
  | .expr e => (e.depth depths, depths)
  | .print args | .draw args => (Expr.depthAll depths args, depths)
  | .function f body =>
    let (n, depths') := body.depth depths
    (0, Function.update depths' f n)
  | .ifThen cond body | .whileDo cond body =>
    let (n, depths') := body.depth depths
    (max (cond.depth depths) n, depths')
  | .ifElse cond body body' =>
    let (n, depths₁) := body.depth depths
    let (n', depths₂) := body'.depth depths₁
    (max (cond.depth depths) (max n n'), depths₂)
  | .drawFlush | .asm _ | .label _ | .goto _ | .foreign _ => (0, depths)

/-- The depth of statements, and the depths of the functions after them. -/
def Stmt.depthAll (depths : String → Nat) : List Stmt → Nat × (String → Nat)
  | [] => (0, depths)
  | s :: rest =>
    let (n, depths₁) := s.depth depths
    let (n', depths₂) := Stmt.depthAll depths₁ rest
    (max n n', depths₂)

/-- The depth of a body, and the depths of the functions after it. -/
def Body.depth (depths : String → Nat) : Body → Nat × (String → Nat)
  | .block ss | .program ss => Stmt.depthAll depths ss
  | .foreign _ => (0, depths)

end

/-- A statement that is no line of assembly, and does not assign the stack pointer. -/
def Stmt.SparesStack (s : Stmt) : Prop :=
  (∀ source, s ≠ .asm source) ∧ ∀ e ∈ s.exprs, Machine.stackPtr ∉ e.targets

theorem Expr.depth_of_atom? {e : Expr} (he : e.atom? = some text) (depths : String → Nat) :
    e.depth depths = 0 := by
  cases e with
  | literal | name => rfl
  | _ => cases he

theorem Expr.depth_of_text? {e : Expr} (he : e.text? = some text) (depths : String → Nat) :
    e.depth depths = 0 := by
  cases e with
  | literal | name | bare => rfl
  | _ => cases he

theorem Body.depth_of_statements? {body : Body} (hb : body.statements? = some ss)
    (depths : String → Nat) : body.depth depths = Stmt.depthAll depths ss := by
  cases body with
  | block | program => cases hb; rw [Body.depth]
  | foreign => cases hb

@[simp] theorem Stmt.depthAll_nil (depths : String → Nat) :
    Stmt.depthAll depths [] = (0, depths) := by
  rw [Stmt.depthAll]

theorem Stmt.depthAll_cons (depths : String → Nat) (s : Stmt) (rest : List Stmt) :
    Stmt.depthAll depths (s :: rest) =
      (max (s.depth depths).1 (Stmt.depthAll (s.depth depths).2 rest).1,
        (Stmt.depthAll (s.depth depths).2 rest).2) := by
  rw [Stmt.depthAll]

theorem Stmt.depthAll_singleton (depths : String → Nat) (s : Stmt) :
    Stmt.depthAll depths [s] = s.depth depths := by
  simp [Stmt.depthAll_cons]

/-! ## Depth of the code -/

theorem Dest.stackFree_settled {dest : Dest} (h : dest.operand ≠ Machine.stackPtr) :
    StackFree (flatten dest.settled) := by
  cases dest with
  | acc => simp [settled]
  | var name => simpa [settled, operand, Instr.dest?] using h

theorem UnaryOp.dest?_instr (op : UnaryOp) (arg : String) :
    (op.instr arg).dest? = some Machine.acc := by
  cases op <;> rfl

namespace Expr

theorem depth_binary_of_atom {l r : Expr} (h : l.isAtom || r.isAtom) (op : Operator)
    (depths : String → Nat) :
    (binary op l r).depth depths = max (l.depth depths) (r.depth depths) := by
  rw [depth, if_pos h]

/-- The code of an expression is balanced and as deep as the expression, if so is the code of each
function. -/
theorem Lowers.spills {functions : String → Option (List Piece)} {depths : String → Nat}
    (hf : ∀ f, Spills (flatten ((functions f).getD [])) (depths f)) {e : Expr}
    (h : e.Lowers functions dest ps) (he : Machine.stackPtr ∉ e.targets)
    (hd : dest.operand ≠ Machine.stackPtr) : Spills (flatten ps) (e.depth depths) := by
  have hacc : Machine.acc ≠ Machine.stackPtr := Machine.acc_ne_stackPtr
  have hset (x v : String) (hx : x ≠ Machine.stackPtr) : StackFree [.set x v] := by
    simpa [Instr.dest?] using hx
  have hop (m x l r : String) (hx : x ≠ Machine.stackPtr) : StackFree [.op m x l r] := by
    simpa [Instr.dest?] using hx
  induction h with
  | atom ha =>
    rw [depth_of_atom? ha]
    exact .of_stackFree (by simpa using hset _ _ hd)
  | @call f body dest hbody =>
    have hcopy := hf f
    rw [hbody] at hcopy
    simpa [depth] using hcopy.before (Dest.stackFree_settled hd)
  | paren _ ih =>
    rw [Piece.flatten_append]
    exact (ih he hacc).before (Dest.stackFree_settled hd)
  | unaryAtom ha =>
    rw [depth, depth_of_atom? ha]
    refine .of_stackFree ?_
    simpa [UnaryOp.dest?_instr, hacc] using Dest.stackFree_settled hd
  | unary _ _ ih =>
    rw [Piece.flatten_append]
    refine (ih he hacc).before ?_
    simpa [UnaryOp.dest?_instr, hacc] using Dest.stackFree_settled hd
  | binaryAtoms hl hr =>
    rw [depth_binary_of_atom (by simp [isAtom, hl]), depth_of_atom? hl, depth_of_atom? hr]
    exact .of_stackFree (by simpa using hop _ _ _ _ hd)
  | binaryRight hl hr _ ih =>
    rw [depth_binary_of_atom (by simp [isAtom, hl]), depth_of_atom? hl, Nat.zero_max,
      Piece.flatten_append]
    refine (ih ?_ hacc).before (by simpa using hop _ _ _ _ hd)
    simp only [targets, List.mem_append, not_or] at he
    exact he.2
  | binaryLeft hl hr _ ih =>
    rw [depth_binary_of_atom (by simp [isAtom, hr]), depth_of_atom? hr, Nat.max_zero,
      Piece.flatten_append]
    refine (ih ?_ hacc).before (by simpa using hop _ _ _ _ hd)
    simp only [targets, List.mem_append, not_or] at he
    exact he.1
  | @binary l r ps qs op dest hl hr _ _ ih ih' =>
    simp only [targets, List.mem_append, not_or] at he
    have hboth := (ih he.1 hacc).append (ih' he.2 hacc).enclose
    rw [depth, if_neg (by simp [isAtom, hl, hr])]
    simpa using hboth.before (hop op.mnemonic dest.operand Machine.regB Machine.acc hd)
  | assign _ ih =>
    simp only [targets, List.mem_cons, not_or] at he
    rw [Piece.flatten_append]
    exact (ih he.2 (Ne.symm he.1)).before (Dest.stackFree_settled hd)
  | updateAtom ha =>
    simp only [targets, List.mem_cons, not_or] at he
    rw [depth, depth_of_atom? ha]
    refine .of_stackFree ?_
    simpa [Instr.dest?, Ne.symm he.1] using Dest.stackFree_settled hd
  | update _ _ ih =>
    simp only [targets, List.mem_cons, not_or] at he
    rw [Piece.flatten_append]
    refine (ih he.2 hacc).before ?_
    simpa [Instr.dest?, Ne.symm he.1] using Dest.stackFree_settled hd
  | sensor =>
    refine .of_stackFree ?_
    simpa [Instr.dest?, hacc] using Dest.stackFree_settled hd

theorem LowersPrint.spills {functions : String → Option (List Piece)} {depths : String → Nat}
    (hf : ∀ f, Spills (flatten ((functions f).getD [])) (depths f))
    (h : LowersPrint functions args ps) (hargs : ∀ e ∈ args, Machine.stackPtr ∉ e.targets) :
    Spills (flatten ps) (depthAll depths args) := by
  have hprint (text : String) : StackFree [.print text] := by simp [Instr.dest?]
  induction h with
  | nil => exact .of_stackFree (by simp)
  | @atom e text args ps ha _ ih =>
    rw [List.forall_mem_cons] at hargs
    rw [depthAll, depth_of_atom? ha, Nat.zero_max]
    simpa using (ih hargs.2).behind (hprint text)
  | computed _ h _ ih =>
    rw [List.forall_mem_cons] at hargs
    have hfirst := (h.spills hf hargs.1 Machine.acc_ne_stackPtr).before (hprint Machine.acc)
    simpa [depthAll] using hfirst.append (ih hargs.2)

end Expr

theorem Expr.depthAll_of_drawText {args : List Expr} {texts : List String}
    (h : args.mapM Expr.drawText = .ok texts) (depths : String → Nat) :
    Expr.depthAll depths args = 0 := by
  rw [mapM_eq_ok_iff] at h
  induction h with
  | nil => rfl
  | @cons e text _ _ he _ ih =>
    have htext : e.text? = some text := by
      rw [drawText] at he
      split at he
      · cases he
        assumption
      · cases he
    rw [depthAll, depth_of_text? htext, ih, Nat.max_self]

/-- A drawing is made of texts, and computes nothing. -/
theorem drawing_of_ofDrawing {args : List Expr} {i : Instr} (h : Instr.ofDrawing args = .ok i) :
    i.dest? = none ∧ ∀ depths, Expr.depthAll depths args = 0 := by
  unfold Instr.ofDrawing at h
  cases ha : args.mapM Expr.drawText with
  | error fault => rw [ha] at h; cases h
  | ok texts =>
    rw [ha] at h
    cases texts with
    | nil => cases h
    | cons shape rest =>
      cases h
      exact ⟨rfl, Expr.depthAll_of_drawText ha⟩

/-- The code of each function is balanced, and as deep as it is said to be. -/
def Scope.Measured (c : Scope) (depths : String → Nat) : Prop :=
  ∀ f, Spills (flatten ((c.functions f).getD [])) (depths f)

theorem Scope.Measured.declare {c : Scope} {depths : String → Nat} (hc : c.Measured depths)
    (h : Spills (flatten ps) n) (f : String) :
    (c.declare f ps).Measured (Function.update depths f n) := by
  intro f'
  by_cases hf : f' = f
  · subst hf
    simpa [Scope.declare_functions] using h
  · simpa [Scope.declare_functions, hf] using hc f'

namespace Stmt

/-- The code of statements is balanced and as deep as the statements, and so is the code of the
functions after them. -/
theorem Lowers.spills (h : Lowers c ss ps c') (hss : Every SparesStack ss)
    {depths : String → Nat} (hc : c.Measured depths) :
    Spills (flatten ps) (depthAll depths ss).1 ∧ c'.Measured (depthAll depths ss).2 := by
  have hacc : Machine.acc ≠ Machine.stackPtr := Machine.acc_ne_stackPtr
  have hlabel (name : String) : StackFree [.label name] := by simp [Instr.dest?]
  have hjump (name : String) : StackFree [.gotoUnless (.label name)] ∧
      StackFree [.goto (.label name)] := by simp [Instr.dest?, Instr.goto, Instr.gotoUnless]
  induction h generalizing depths with
  | nil =>
    rw [depthAll_nil]
    exact ⟨.of_stackFree (by simp), hc⟩
  | @cons c c₁ c₂ s t rest ps qs _ _ ih ih' =>
    rw [every_cons] at hss
    obtain ⟨hps, hc₁⟩ := ih hss.1 hc
    obtain ⟨hqs, hc₂⟩ := ih' hss.2 hc₁
    rw [depthAll_singleton] at hps hqs hc₂
    rw [depthAll_cons, Piece.flatten_append]
    exact ⟨hps.append hqs, hc₂⟩
  | block _ ih =>
    rw [depthAll_singleton, depth]
    exact ih (every_block.mp hss).2 hc
  | expr h =>
    rw [depthAll_singleton, depth]
    exact ⟨h.spills hc (hss.head.2 _ (by simp [exprs])) hacc, hc⟩
  | print h =>
    rw [depthAll_singleton, depth, Piece.flatten_append]
    exact ⟨(h.spills hc hss.head.2).before (by simp [Instr.dest?]), hc⟩
  | draw h =>
    obtain ⟨hi, hdepth⟩ := drawing_of_ofDrawing h
    rw [depthAll_singleton, depth, hdepth]
    exact ⟨.of_stackFree (by simp [hi]), hc⟩
  | drawFlush | label =>
    rw [depthAll_singleton, depth]
    exact ⟨.of_stackFree (by simp [Instr.dest?]), hc⟩
  | goto =>
    rw [depthAll_singleton, depth]
    exact ⟨.of_stackFree (by simp [Instr.dest?, Instr.goto]), hc⟩
  | asm => exact (hss.head.1 _ rfl).elim
  | @function c c' f body ss ps hb _ ih =>
    obtain ⟨hps, hc'⟩ := ih ((every_function hb).mp hss).2 hc
    rw [depthAll_singleton, depth, Body.depth_of_statements? hb]
    exact ⟨.of_stackFree (by simp), hc'.declare hps f⟩
  | @ifThen c c' cond body ss ps qs hcond hb _ ih =>
    obtain ⟨hs, hss⟩ := (every_ifThen hb).mp hss
    obtain ⟨hqs, hc'⟩ := ih hss hc
    have hps := hcond.spills hc (hs.2 _ (by simp [exprs])) hacc
    rw [depthAll_singleton, depth, Body.depth_of_statements? hb]
    refine ⟨?_, hc'⟩
    have hbody := (hqs.behind (hjump (ifLabel c.nextId)).1).before (hlabel (ifLabel c.nextId))
    simpa using hps.append hbody
  | @ifElse c c₁ c₂ cond body body' ss ss' ps qs qs' hcond hb hb' _ _ ih ih' =>
    obtain ⟨hs, hss, hss'⟩ := (every_ifElse hb hb').mp hss
    obtain ⟨hqs, hc₁⟩ := ih hss hc
    obtain ⟨hqs', hc₂⟩ := ih' hss' hc₁
    have hps := hcond.spills hc (hs.2 _ (by simp [exprs])) hacc
    simp only [depthAll_singleton, depth, Body.depth_of_statements? hb,
      Body.depth_of_statements? hb']
    refine ⟨?_, hc₂⟩
    have hthen := (hqs.behind (hjump (ifLabel c.nextId)).1).before (hjump (contLabel c.nextId)).2
    have helse := (hqs'.behind (hlabel (ifLabel c.nextId))).before (hlabel (contLabel c.nextId))
    simpa using hps.append (hthen.append helse)
  | @whileDo c c' cond body ss ps qs hcond hb _ ih =>
    obtain ⟨hs, hss⟩ := (every_whileDo hb).mp hss
    obtain ⟨hqs, hc'⟩ := ih hss hc
    have hps := hcond.spills hc (hs.2 _ (by simp [exprs])) hacc
    rw [depthAll_singleton, depth, Body.depth_of_statements? hb]
    refine ⟨?_, hc'⟩
    have htest := (hps.behind (hlabel (whileLabel c.nextId))).before (hjump (contLabel c.nextId)).1
    have hbody := (hqs.before (hjump (whileLabel c.nextId)).2).before (hlabel (contLabel c.nextId))
    simpa using htest.append hbody

end Stmt

/-! ## Reachable generators -/

/-- The greatest depth of each function that is declared. -/
def Generator.depths (g : Generator) (f : String) : Nat := peak (g.functions[f]?.getD [])

/-- The code of each function is balanced. -/
def Generator.FunctionsBalanced (g : Generator) : Prop :=
  ∀ (f : String) (body : List Instr), g.functions[f]? = some body → Balanced body

theorem Scope.Describes.flatten_functions {c : Scope} {g : Generator} (hg : c.Describes g)
    (f : String) : flatten ((c.functions f).getD []) = g.functions[f]?.getD [] := by
  rw [hg.functions]
  cases c.functions f <;> simp

theorem Generator.FunctionsBalanced.measured {g : Generator} (hg : g.FunctionsBalanced) :
    g.scope.Measured g.depths := by
  intro f
  rw [g.scope_describes.flatten_functions]
  refine ⟨?_, rfl⟩
  cases hf : g.functions[f]? with
  | none => exact (Spills.of_stackFree stackFree_nil).balanced
  | some body => exact hg f body hf

theorem Scope.Measured.of_describes {c : Scope} {g : Generator} {depths : String → Nat}
    (hc : c.Measured depths) (hg : c.Describes g) : g.depths = depths ∧ g.FunctionsBalanced := by
  have hcode (f : String) : Spills (g.functions[f]?.getD []) (depths f) := by
    rw [← hg.flatten_functions]
    exact hc f
  refine ⟨funext fun f => (hcode f).peak_eq, ?_⟩
  intro f body hf
  have hbody := hcode f
  rw [hf] at hbody
  exact hbody.balanced

/-- What can be lowered. -/
inductive Node where
  | expr (e : Expr)
  | stmt (s : Stmt)
  | body (b : Body)

namespace Node

/-- Emit the code of a node. -/
def lower : Node → Gen Unit
  | expr e => e.lower
  | stmt s => s.lower
  | body b => b.lower

/-- The depth of a node, and the depths of the functions after it. -/
def depth (depths : String → Nat) : Node → Nat × (String → Nat)
  | expr e => (e.depth depths, depths)
  | stmt s => s.depth depths
  | body b => b.depth depths

/-- There are no lines of assembly in a node, and it does not assign the stack pointer. -/
def SparesStack : Node → Prop
  | expr e => Machine.stackPtr ∉ e.targets
  | stmt s => ∀ t ∈ s.within, t.SparesStack
  | body b => ∀ t ∈ b.within, t.SparesStack

/-- A node is lowered as statements. -/
theorem exists_statements {node : Node} {g g' : Generator} (hn : node.SparesStack)
    (h : node.lower.run g = .ok () g') :
    ∃ ss, (Stmt.lowerAll ss).run g = .ok () g' ∧ Stmt.Every Stmt.SparesStack ss ∧
      ∀ depths, node.depth depths = Stmt.depthAll depths ss := by
  cases node with
  | expr e =>
    refine ⟨[.expr e], ?_, ?_, ?_⟩
    · rwa [Stmt.run_lowerAll_singleton, Stmt.lower]
    · rw [SparesStack] at hn
      simpa [Stmt.Every, Stmt.within, Stmt.SparesStack, Stmt.exprs] using hn
    · intro depths
      rw [Stmt.depthAll_singleton, Stmt.depth, depth]
  | stmt s =>
    refine ⟨[s], ?_, ?_, ?_⟩
    · rwa [Stmt.run_lowerAll_singleton]
    · rw [SparesStack] at hn
      simpa [Stmt.Every] using hn
    · intro depths
      rw [Stmt.depthAll_singleton, depth]
  | body b =>
    cases b with
    | block ss | program ss =>
      refine ⟨ss, ?_, ?_, ?_⟩
      · rwa [lower, Body.lower] at h
      · rwa [SparesStack, Body.within] at hn
      · intro depths
        rw [depth, Body.depth]
    | foreign kind => simp [lower, Body.lower] at h

/-- A node that is lowered keeps all functions balanced, and so is its own code. -/
theorem spills_of_run {node : Node} {g g' : Generator} (hg : g.FunctionsBalanced)
    (hn : node.SparesStack) (h : node.lower.run g = .ok () g') :
    (∃ code, g'.code = g.code ++ code ∧ Spills code (node.depth g.depths).1) ∧
      g'.depths = (node.depth g.depths).2 ∧ g'.FunctionsBalanced := by
  obtain ⟨ss, hr, hss, hdepth⟩ := exists_statements hn h
  obtain ⟨ps, c', hl, hcode, hg'⟩ := Stmt.lowers_of_run ss g.scope_describes hr
  obtain ⟨hps, hc'⟩ := hl.spills hss hg.measured
  rw [hdepth]
  exact ⟨⟨flatten ps, hcode, hps⟩, hc'.of_describes hg'⟩

end Node

/-- A generator that was used only to lower nodes that leave the stack pointer alone, without a
fault. -/
inductive Generator.Reached : Generator → Prop where
  | fresh : Reached {}
  | lower {g g' : Generator} {node : Node} (h : Reached g) (hn : node.SparesStack)
      (hr : node.lower.run g = .ok () g') : Reached g'

theorem Generator.Reached.functionsBalanced {g : Generator} (h : g.Reached) :
    g.FunctionsBalanced := by
  induction h with
  | fresh =>
    intro f body hf
    simp at hf
  | lower _ hn hr ih => exact (Node.spills_of_run ih hn hr).2.2

/-- At any time all declared functions are balanced. A node that is lowered next has balanced code,
which goes just as deep as is told by the tree and the greatest depths of the declared functions,
and it leaves functions that are as deep as is told. -/
theorem spill_stack_disciplined {g : Generator} (hg : g.Reached) :
    (∀ (f : String) (body : List Instr), g.functions[f]? = some body → Balanced body) ∧
      ∀ (node : Node) (g' : Generator), node.SparesStack → node.lower.run g = .ok () g' →
        (∃ code, g'.code = g.code ++ code ∧ Balanced code ∧
          peak code = (node.depth g.depths).1) ∧
        g'.depths = (node.depth g.depths).2 := by
  refine ⟨hg.functionsBalanced, ?_⟩
  intro node g' hn hr
  obtain ⟨⟨code, hcode, hbalanced, hpeak⟩, hdepths, -⟩ :=
    Node.spills_of_run hg.functionsBalanced hn hr
  exact ⟨⟨code, hcode, hbalanced, hpeak⟩, hdepths⟩

namespace SpilledCall

/-- The sum of two variables, which has to be computed. -/
def sum : Expr := .paren (.binary (.binary .add) (.name "a") (.name "b"))

/-- A function that saves a value. -/
def function : Node := .stmt (.function "f" (.block [.expr (.binary (.binary .mul) sum sum)]))

/-- A call while a value is saved. -/
def call : Node := .expr (.binary (.binary .add) sum (.call "f"))

/-- The code of the function. -/
def body : List Instr :=
  [.op "add" "eax" "a" "b"] ++ pushCode "eax" ++ [.op "add" "eax" "a" "b"] ++ popCode "ebx" ++
    [.op "mul" "eax" "ebx" "eax"]

/-- The generator that knows the function. -/
def generator : Generator := { functions := .insert ∅ "f" body }

/-- The code of the call, with the function inside. -/
def code : List Instr :=
  [.op "add" "eax" "a" "b"] ++ pushCode "eax" ++ body ++ popCode "ebx" ++
    [.op "add" "eax" "ebx" "eax"]

theorem reached : generator.Reached := by
  have hspares : function.SparesStack := by
    simp [function, Node.SparesStack, Stmt.within, Body.within, Stmt.SparesStack, Stmt.exprs, sum,
      Expr.targets]
  have hrun : function.lower.run {} = .ok () generator := rfl
  exact .lower .fresh hspares hrun

theorem sparesStack_call : call.SparesStack := by
  simp [call, Node.SparesStack, sum, Expr.targets]

theorem run_call : call.lower.run generator = .ok () { generator with code := code } := rfl

end SpilledCall

/-- Two values are saved at the same time, one by the function and one by what calls it. -/
theorem spill_stack_disciplined_spilledCall :
    SpilledCall.generator.Reached ∧ SpilledCall.call.SparesStack ∧
      Balanced SpilledCall.body ∧ Balanced SpilledCall.code ∧ peak SpilledCall.code = 2 := by
  obtain ⟨hfunctions, hnodes⟩ := spill_stack_disciplined SpilledCall.reached
  obtain ⟨⟨code, hcode, hbalanced, hpeak⟩, -⟩ :=
    hnodes _ _ SpilledCall.sparesStack_call SpilledCall.run_call
  obtain rfl : SpilledCall.code = code := hcode
  refine ⟨SpilledCall.reached, SpilledCall.sparesStack_call, hfunctions "f" _ rfl, hbalanced, ?_⟩
  rw [hpeak]
  decide +kernel

end LogicAsm
