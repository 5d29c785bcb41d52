import LogicAsm.Proofs.Numbers

/-!
# Lowering only appends

Lowering writes behind what is in the buffer and does not look at it: from any buffer it runs as
from the empty one, whether it fails or not (`Gen.AppendOnly`, `Stmt.appendOnly_lower`). What it
appends, the numbers it takes and the functions it declares depend on the tree, the counter and
the functions before. The counter does not go back and no function is forgotten
(`lowering_append_only`).
-/

namespace LogicAsm

open Gen

/-- A generator at a later time: the counter did not go back, and no function was forgotten. -/
structure Generator.Grows (g g' : Generator) : Prop where
  nextId_le : g.nextId ≤ g'.nextId
  mem_functions : ∀ f ∈ g.functions, f ∈ g'.functions

namespace Generator.Grows

theorem refl (g : Generator) : g.Grows g := ⟨Nat.le_refl _, fun _ hf => hf⟩

theorem trans {g g₁ g₂ : Generator} (h : g.Grows g₁) (h' : g₁.Grows g₂) : g.Grows g₂ :=
  ⟨Nat.le_trans h.nextId_le h'.nextId_le, fun f hf => h'.mem_functions f (h.mem_functions f hf)⟩

theorem declare (g : Generator) (f : String) (code : List Instr) :
    g.Grows { g with functions := g.functions.insert f code } :=
  ⟨Nat.le_refl _, fun _ hf => Std.TreeMap.mem_insert.mpr (.inr hf)⟩

end Generator.Grows

/-! ## Actions that only append -/

namespace Gen

/-- The outcome of a run, with other code before its buffer. -/
def behind (code : List Instr) :
    EStateM.Result Fault Generator α → EStateM.Result Fault Generator α
  | .ok a g => .ok a { g with code := code ++ g.code }
  | .error fault g => .error fault { g with code := code ++ g.code }

theorem behind_append (code code' : List Instr) (r : EStateM.Result Fault Generator α) :
    behind (code ++ code') r = behind code (behind code' r) := by
  cases r <;> simp [behind]

/-- The action appends to the buffer and is blind to it: its run is that from the empty buffer,
put behind the buffer. Counter and functions grow. -/
structure AppendOnly (act : Gen α) : Prop where
  run_eq : ∀ g, act.run g = behind g.code (act.run { g with code := [] })
  grows : ∀ g : Generator, g.Grows (act.after g)

theorem appendOnly_pure (a : α) : AppendOnly (pure a : Gen α) where
  run_eq g := by simp [behind]
  grows := .refl

theorem appendOnly_throw (fault : Fault) : AppendOnly (throw fault : Gen α) where
  run_eq g := by
    change EStateM.Result.error fault g = behind g.code (.error fault { g with code := [] })
    simp [behind]
  grows := .refl

theorem appendOnly_emitAll (code : List Instr) : AppendOnly (emitAll code) where
  run_eq g := by simp [behind]
  grows g := ⟨Nat.le_refl _, fun _ hf => hf⟩

theorem appendOnly_emit (i : Instr) : AppendOnly (emit i) := appendOnly_emitAll [i]

theorem appendOnly_freshId : AppendOnly freshId where
  run_eq g := by simp [behind]
  grows g := ⟨Nat.le_succ _, fun _ hf => hf⟩

theorem appendOnly_lookup (f : String) : AppendOnly (lookup f) where
  run_eq g := by
    cases h : g.functions[f]? with
    | none =>
      rw [run_lookup_of_none g h, run_lookup_of_none { g with code := [] } h]
      simp [behind]
    | some code =>
      rw [run_lookup_of_some g h, run_lookup_of_some { g with code := [] } h]
      simp [behind]
  grows g := by
    rw [after]
    cases h : g.functions[f]? with
    | none =>
      rw [run_lookup_of_none g h]
      exact .refl g
    | some code =>
      rw [run_lookup_of_some g h]
      exact .refl g

theorem appendOnly_ofExcept (r : Except Fault α) : AppendOnly (ofExcept r : Gen α) := by
  cases r with
  | ok a => exact appendOnly_pure a
  | error fault => exact appendOnly_throw fault

theorem appendOnly_settle (dest : Dest) : AppendOnly dest.settle := by
  cases dest with
  | acc => exact appendOnly_pure ()
  | var name => exact appendOnly_emit _

namespace AppendOnly

theorem bind {x : Gen α} {f : α → Gen β} (hx : AppendOnly x) (hf : ∀ a, AppendOnly (f a)) :
    AppendOnly (x >>= f) where
  run_eq g := by
    rw [EStateM.run_bind, EStateM.run_bind, hx.run_eq g]
    cases x.run { g with code := [] } with
    | ok a g₁ =>
      -- Both runs of `f a` are the one from the empty buffer.
      have hg₁ := (hf a).run_eq g₁
      have hg₂ := (hf a).run_eq { g₁ with code := g.code ++ g₁.code }
      simp only [behind] at hg₂ ⊢
      rw [hg₂, hg₁]
      exact behind_append _ _ _
    | error fault g₁ => rfl
  grows g := by
    have hg := hx.grows g
    rw [after_bind]
    rw [after] at hg
    cases hr : x.run g with
    | ok a g₁ =>
      rw [hr] at hg
      exact hg.trans ((hf a).grows g₁)
    | error fault g₁ =>
      rw [hr] at hg
      exact hg

/-- A function is made in a buffer of its own, so there the buffer plays no part at all. -/
theorem declare {act : Gen Unit} (h : AppendOnly act) (f : String) :
    AppendOnly (detached act >>= declare f) where
  run_eq g := by
    rw [EStateM.run_bind, EStateM.run_bind, run_detached, run_detached]
    cases act.run { g with code := [] } <;> simp [behind]
  grows g := by
    have hg := h.grows { g with code := [] }
    rw [after_bind, run_detached]
    rw [after] at hg
    cases hr : act.run { g with code := [] } with
    | ok a g₁ =>
      rw [hr] at hg
      have hbody : g.Grows { g₁ with code := g.code } := ⟨hg.nextId_le, hg.mem_functions⟩
      exact hbody.trans (.declare _ f g₁.code)
    | error fault g₁ =>
      rw [hr] at hg
      exact ⟨hg.nextId_le, hg.mem_functions⟩

theorem forM {xs : List α} {f : α → Gen Unit} (h : ∀ x, AppendOnly (f x)) :
    AppendOnly (xs.forM f) := by
  induction xs with
  | nil => exact appendOnly_pure ()
  | cons x xs ih => exact (h x).bind fun _ => ih

end AppendOnly

end Gen

/-! ## Expressions -/

namespace Expr

theorem appendOnly_operand {e : Expr} {act : Gen Unit} (h : AppendOnly act) :
    AppendOnly (e.operand act) := by
  unfold operand
  split
  · exact appendOnly_pure _
  · exact h.bind fun _ => appendOnly_pure _

theorem appendOnly_operands {l r : Expr} {actL actR : Gen Unit} (hl : AppendOnly actL)
    (hr : AppendOnly actR) : AppendOnly (operands l r actL actR) := by
  unfold operands
  split
  · exact appendOnly_pure _
  · exact hr.bind fun _ => appendOnly_pure _
  · exact hl.bind fun _ => appendOnly_pure _
  · refine hl.bind fun _ => (appendOnly_emitAll _).bind fun _ => hr.bind fun _ => ?_
    exact (appendOnly_emitAll _).bind fun _ => appendOnly_pure _

theorem appendOnly_lowerTo (e : Expr) (dest : Dest) : AppendOnly (e.lowerTo dest) := by
  induction e generalizing dest with
  | literal | name => exact appendOnly_emit _
  | bare | foreign => exact appendOnly_throw _
  | call f =>
    refine (appendOnly_lookup f).bind fun code => ?_
    exact (appendOnly_emitAll code).bind fun _ => appendOnly_settle dest
  | paren e ih => exact (ih .acc).bind fun _ => appendOnly_settle dest
  | unary op e ih =>
    refine (appendOnly_operand (ih .acc)).bind fun arg => (appendOnly_ofExcept _).bind fun op => ?_
    exact (appendOnly_emit _).bind fun _ => appendOnly_settle dest
  | binary op l r ihl ihr =>
    refine (appendOnly_ofExcept _).bind fun op => ?_
    exact (appendOnly_operands (ihl .acc) (ihr .acc)).bind fun _ => appendOnly_emit _
  | assign x e ih => exact (ih (.var x)).bind fun _ => appendOnly_settle dest
  | update op x e ih =>
    refine (appendOnly_ofExcept _).bind fun op => (appendOnly_operand (ih .acc)).bind fun arg => ?_
    exact (appendOnly_emit _).bind fun _ => appendOnly_settle dest
  | sensor => exact (appendOnly_emit _).bind fun _ => appendOnly_settle dest

/-- An expression takes no number and declares nothing, also if it fails. -/
theorem after_lower (e : Expr) (g : Generator) :
    (e.lower.after g).nextId = g.nextId ∧ (e.lower.after g).functions = g.functions := by
  obtain ⟨code, -, hg⟩ := e.appends_lowerTo .acc (.inr fun _ => trivial) g
  rw [lower, hg]
  exact ⟨rfl, rfl⟩

end Expr

/-! ## Statements and programs -/

mutual

theorem Stmt.appendOnly_lower (s : Stmt) : AppendOnly s.lower := by
  have hexpr (e : Expr) : AppendOnly e.lower := e.appendOnly_lowerTo .acc
  match s with
  | .block ss =>
    rw [Stmt.lower]
    exact Stmt.appendOnly_lowerAll ss
  | .expr e =>
    rw [Stmt.lower]
    exact hexpr e
  | .print args =>
    rw [Stmt.lower]
    refine AppendOnly.bind (.forM fun e => ?_) fun _ => appendOnly_emit _
    exact (Expr.appendOnly_operand (hexpr e)).bind fun _ => appendOnly_emit _
  | .draw _ | .asm _ =>
    rw [Stmt.lower]
    exact (appendOnly_ofExcept _).bind fun i => appendOnly_emit i
  | .function f body =>
    rw [Stmt.lower]
    exact (Body.appendOnly_lower body).declare f
  | .ifThen cond body =>
    rw [Stmt.lower]
    refine (hexpr cond).bind fun _ => appendOnly_freshId.bind fun id => ?_
    refine (appendOnly_emit _).bind fun _ => (Body.appendOnly_lower body).bind fun _ => ?_
    exact appendOnly_emit _
  | .ifElse cond body body' =>
    rw [Stmt.lower]
    refine (hexpr cond).bind fun _ => appendOnly_freshId.bind fun id => ?_
    refine (appendOnly_emit _).bind fun _ => (Body.appendOnly_lower body).bind fun _ => ?_
    refine (appendOnly_emit _).bind fun _ => (appendOnly_emit _).bind fun _ => ?_
    exact (Body.appendOnly_lower body').bind fun _ => appendOnly_emit _
  | .whileDo cond body =>
    rw [Stmt.lower]
    refine appendOnly_freshId.bind fun id => (appendOnly_emit _).bind fun _ => ?_
    refine (hexpr cond).bind fun _ => (appendOnly_emit _).bind fun _ => ?_
    refine (Body.appendOnly_lower body).bind fun _ => (appendOnly_emit _).bind fun _ => ?_
    exact appendOnly_emit _
  | .drawFlush | .label _ | .goto _ =>
    rw [Stmt.lower]
    exact appendOnly_emit _
  | .foreign kind =>
    rw [Stmt.lower]
    exact appendOnly_throw _

theorem Stmt.appendOnly_lowerAll (ss : List Stmt) : AppendOnly (Stmt.lowerAll ss) := by
  match ss with
  | [] =>
    rw [Stmt.lowerAll]
    exact appendOnly_pure ()
  | s :: rest =>
    rw [Stmt.lowerAll]
    exact (Stmt.appendOnly_lower s).bind fun _ => Stmt.appendOnly_lowerAll rest

theorem Body.appendOnly_lower (body : Body) : AppendOnly body.lower := by
  match body with
  | .block ss | .program ss =>
    rw [Body.lower]
    exact Stmt.appendOnly_lowerAll ss
  | .foreign kind =>
    rw [Body.lower]
    exact appendOnly_throw _

end

/-- But for the buffer that is returned, a program is lowered between its preamble and its end. -/
theorem Body.discard_generate (ss : List Stmt) :
    discard (Body.program ss).generate =
      (do emitAll preamble; Stmt.lowerAll ss; emit .halt : Gen Unit) := by
  simp only [Functor.discard, map_const, Function.comp, Body.generate, map_bind]
  rfl

theorem Body.appendOnly_generate (root : Body) : AppendOnly (discard root.generate) := by
  cases root with
  | program ss =>
    rw [Body.discard_generate]
    refine (appendOnly_emitAll _).bind fun _ => (Stmt.appendOnly_lowerAll ss).bind fun _ => ?_
    exact appendOnly_emit _
  | block | foreign => exact appendOnly_throw _

/-- What is returned is the whole buffer. -/
theorem Body.generate_eq (root : Body) :
    root.generate = (do discard root.generate; return (← get).code) := by
  cases root with
  | program ss =>
    rw [Body.discard_generate, Body.generate]
    simp only [bind_assoc]
  | block | foreign => rfl

/-- Whatever is lowered, code is only appended to the buffer, and what was there before plays no
part: neither in that code nor in the outcome, the counter and the functions. This holds of faults
as well. The counter does not go back and no function is forgotten; an expression leaves both as
they are. A program returns the whole buffer, and is lowered like the rest otherwise. -/
theorem lowering_append_only :
    (∀ e : Expr, AppendOnly e.lower ∧ ∀ g : Generator,
      (e.lower.after g).nextId = g.nextId ∧ (e.lower.after g).functions = g.functions) ∧
    (∀ s : Stmt, AppendOnly s.lower) ∧
    (∀ b : Body, AppendOnly b.lower) ∧
    ∀ root : Body, AppendOnly (discard root.generate) ∧
      root.generate = (do discard root.generate; return (← get).code) :=
  ⟨fun e => ⟨e.appendOnly_lowerTo .acc, e.after_lower⟩, Stmt.appendOnly_lower,
    Body.appendOnly_lower, fun root => ⟨root.appendOnly_generate, root.generate_eq⟩⟩

end LogicAsm
