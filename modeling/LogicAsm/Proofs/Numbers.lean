import LogicAsm.Workspace
import LogicAsm.Proofs.OwnCode

/-!
# Numbers of control structures

A control structure takes its number from a counter that never goes back, not even if an action
fails. Lowering is repeated here with a record of the numbers that are handed out
(`Stmt.lowerLogged`): it runs as lowering does, and the record gets just the numbers from the
counter before to the counter after, in order (`Stmt.counts_lower`, `Action.counts_run`).
-/

namespace LogicAsm

open Gen

/-! ## What an action leaves -/

namespace Gen

/-- The state that an action leaves, also if it fails. -/
def after (act : Gen α) (g : Generator) : Generator :=
  match act.run g with
  | .ok _ g' | .error _ g' => g'

theorem after_bind (x : Gen α) (f : α → Gen β) (g : Generator) :
    (x >>= f).after g =
      match x.run g with
      | .ok a g₁ => (f a).after g₁
      | .error _ g₁ => g₁ := by
  rw [after, EStateM.run_bind]
  cases x.run g <;> rfl

/-- The action does nothing but append code, also if it fails. All labels in that code are
written by the program. -/
def Appends (written : String → Prop) (act : Gen α) : Prop :=
  ∀ g, ∃ code, (∀ name ∈ labelsOf code, written name) ∧
    act.after g = { g with code := g.code ++ code }

variable {written : String → Prop}

theorem appends_pure (a : α) : Appends written (pure a : Gen α) :=
  fun g => ⟨[], by simp, by simp [after]⟩

theorem appends_throw (fault : Fault) : Appends written (throw fault : Gen α) :=
  fun g => ⟨[], by simp, by rw [List.append_nil]; rfl⟩

theorem appends_emitAll {code : List Instr} (h : ∀ name ∈ labelsOf code, written name) :
    Appends written (emitAll code) :=
  fun _ => ⟨code, h, rfl⟩

theorem appends_plain {code : List Instr} (h : ∀ i ∈ code, i.Plain) :
    Appends written (emitAll code) :=
  appends_emitAll (by simp [labelsOf_eq_nil h])

theorem appends_lookup (f : String) : Appends written (lookup f) := by
  intro g
  refine ⟨[], by simp, ?_⟩
  cases h : g.functions[f]? with
  | none => simp [after, run_lookup_of_none g h]
  | some code => simp [after, run_lookup_of_some g h]

theorem appends_settle (dest : Dest) : Appends written dest.settle := by
  cases dest with
  | acc => exact appends_pure ()
  | var name => exact appends_plain (by simp [Instr.Plain])

namespace Appends

theorem bind {x : Gen α} {f : α → Gen β} (hx : Appends written x)
    (hf : ∀ a, Appends written (f a)) : Appends written (x >>= f) := by
  intro g
  obtain ⟨code, hcode, hg⟩ := hx g
  rw [after_bind]
  cases hr : x.run g with
  | ok a g₁ =>
    obtain rfl : g₁ = { g with code := g.code ++ code } := by rwa [after, hr] at hg
    obtain ⟨code', hcode', hg'⟩ := hf a { g with code := g.code ++ code }
    refine ⟨code ++ code', ?_, by simpa using hg'⟩
    intro name hn
    rw [labelsOf_append, List.mem_append] at hn
    exact hn.elim (hcode name) (hcode' name)
  | error fault g₁ =>
    rw [after, hr] at hg
    exact ⟨code, hcode, hg⟩

theorem ofExcept_bind {r : Except Fault α} {f : α → Gen β}
    (h : ∀ a, r = .ok a → Appends written (f a)) : Appends written (ofExcept r >>= f) := by
  cases r with
  | ok a => exact h a rfl
  | error fault => exact appends_throw fault

theorem forM {xs : List α} {f : α → Gen Unit} (h : ∀ x ∈ xs, Appends written (f x)) :
    Appends written (xs.forM f) := by
  induction xs with
  | nil => exact appends_pure ()
  | cons x xs ih =>
    rw [List.forall_mem_cons] at h
    exact h.1.bind fun _ => ih h.2

theorem nextId_after {act : Gen α} (h : Appends written act) (g : Generator) :
    (act.after g).nextId = g.nextId := by
  obtain ⟨code, -, hg⟩ := h g
  rw [hg]

end Appends

end Gen

/-! ## Code without structure -/

section Appends

variable {written : String → Prop}

namespace Expr

theorem appends_operand {e : Expr} {act : Gen Unit} (h : Appends written act) :
    Appends written (e.operand act) := by
  unfold operand
  split
  · exact appends_pure _
  · exact h.bind fun _ => appends_pure _

theorem appends_operands {l r : Expr} {actL actR : Gen Unit} (hl : Appends written actL)
    (hr : Appends written actR) : Appends written (operands l r actL actR) := by
  unfold operands
  split
  · exact appends_pure _
  · exact hr.bind fun _ => appends_pure _
  · exact hl.bind fun _ => appends_pure _
  · refine hl.bind fun _ => (appends_plain ?_).bind fun _ => hr.bind fun _ => ?_
    · simp [Instr.Plain]
    · exact (appends_plain (by simp [Instr.Plain])).bind fun _ => appends_pure _

/-- An expression without calls defines no labels. With calls, it may define any. -/
theorem appends_lowerTo (e : Expr) (dest : Dest)
    (hc : e.calls = [] ∨ ∀ name, written name) : Appends written (e.lowerTo dest) := by
  have hset (d x : String) : Appends written (emit (.set d x)) :=
    appends_plain (by simp [Instr.Plain])
  have hop (m d x y : String) : Appends written (emit (.op m d x y)) :=
    appends_plain (by simp [Instr.Plain])
  induction e generalizing dest with
  | literal | name => exact hset _ _
  | bare | foreign => exact appends_throw _
  | call f =>
    refine (appends_lookup f).bind fun code => Appends.bind ?_ fun _ => appends_settle dest
    exact appends_emitAll fun name _ => hc.elim (fun h => by cases h) (fun h => h name)
  | paren e ih => exact (ih .acc hc).bind fun _ => appends_settle dest
  | unary op e ih =>
    refine (appends_operand (ih .acc hc)).bind fun arg => .ofExcept_bind fun op _ => ?_
    refine (appends_plain ?_).bind fun _ => appends_settle dest
    simpa using op.plain_instr arg
  | binary op l r ihl ihr =>
    have hl : l.calls = [] ∨ ∀ name, written name :=
      hc.imp_left fun h => (List.append_eq_nil_iff.mp h).1
    have hr : r.calls = [] ∨ ∀ name, written name :=
      hc.imp_left fun h => (List.append_eq_nil_iff.mp h).2
    refine .ofExcept_bind fun op _ => ?_
    exact (appends_operands (ihl .acc hl) (ihr .acc hr)).bind fun _ => hop _ _ _ _
  | assign x e ih => exact (ih (.var x) hc).bind fun _ => appends_settle dest
  | update op x e ih =>
    refine .ofExcept_bind fun op _ => (appends_operand (ih .acc hc)).bind fun arg => ?_
    exact (hop _ _ _ _).bind fun _ => appends_settle dest
  | sensor =>
    refine (appends_plain ?_).bind fun _ => appends_settle dest
    simp [Instr.Plain]

end Expr

namespace Stmt

/-- A statement that neither has statements inside nor declares anything. -/
def isSimple : Stmt → Bool
  | .block _ | .function .. | .ifThen .. | .ifElse .. | .whileDo .. => false
  | _ => true

/-- A simple statement defines only labels that it writes, unless it calls a function. -/
theorem appends_lower {s : Stmt} (hs : s.isSimple) (hc : s.CallFree ∨ ∀ name, written name)
    (hw : ∀ name, Defines [s] name → written name) : Appends written s.lower := by
  have hcalls {e : Expr} (he : e ∈ s.exprs) : e.calls = [] ∨ ∀ name, written name :=
    hc.imp_left fun h => h e he
  cases s with
  | block | function | ifThen | ifElse | whileDo => cases hs
  | expr e =>
    rw [lower]
    exact e.appends_lowerTo .acc (hcalls (by simp [exprs]))
  | print args =>
    rw [lower]
    refine Appends.bind (.forM fun e he => ?_) fun _ => appends_plain (by simp [Instr.Plain])
    refine (Expr.appends_operand (e.appends_lowerTo .acc (hcalls he))).bind fun _ => ?_
    exact appends_plain (by simp [Instr.Plain])
  | draw args =>
    rw [lower]
    refine .ofExcept_bind fun i hi => appends_plain ?_
    simpa using Instr.plain_of_ofDrawing hi
  | drawFlush =>
    rw [lower]
    exact appends_plain (by simp [Instr.Plain])
  | asm source =>
    rw [lower]
    refine .ofExcept_bind fun i hi => appends_emitAll fun name hn => hw name (.inr ⟨source, ?_, ?_⟩)
    · simp [within]
    · obtain rfl : i = .label name := by simpa [mem_labelsOf, eq_comm] using hn
      exact hi
  | label name =>
    rw [lower]
    refine appends_emitAll fun name' hn => hw name' (.inl ?_)
    obtain rfl : name' = name := by simpa [mem_labelsOf] using hn
    simp [within]
  | goto name =>
    rw [lower]
    exact appends_emitAll (by simp [labelsOf_cons_goto])
  | foreign kind =>
    rw [lower]
    exact appends_throw _

end Stmt

end Appends

/-! ## A record of numbers -/

/-- An action that records the numbers it hands out. -/
abbrev Logged := EStateM Fault (List Nat × Generator)

namespace Logged

/-- Carry out an action that hands out no number. -/
def lift (act : Gen α) : Logged α := fun (ids, g) =>
  match act.run g with
  | .ok a g' => .ok a (ids, g')
  | .error fault g' => .error fault (ids, g')

/-- Hand out a number. -/
def freshId : Logged Nat := do
  let id ← lift Gen.freshId
  modify fun (ids, g) => (ids ++ [id], g)
  return id

/-- The code that an action emits. Its numbers are handed out for good. -/
def detached (act : Logged Unit) : Logged (List Instr) := fun (ids, g) =>
  match act.run (ids, { g with code := [] }) with
  | .ok _ (ids', g') => .ok g'.code (ids', { g' with code := g.code })
  | .error fault (ids', g') => .error fault (ids', { g' with code := g.code })

/-- The numbers that an action hands out, in order. -/
def log (x : Logged α) (g : Generator) : List Nat :=
  match x.run ([], g) with
  | .ok _ s | .error _ s => s.1

@[simp] theorem run_lift (act : Gen α) (ids : List Nat) (g : Generator) :
    (lift act).run (ids, g) =
      match act.run g with
      | .ok a g' => .ok a (ids, g')
      | .error fault g' => .error fault (ids, g') := rfl

theorem run_detached (act : Logged Unit) (ids : List Nat) (g : Generator) :
    (detached act).run (ids, g) =
      match act.run (ids, { g with code := [] }) with
      | .ok _ (ids', g') => .ok g'.code (ids', { g' with code := g.code })
      | .error fault (ids', g') => .error fault (ids', { g' with code := g.code }) := rfl

end Logged

open Logged (lift)

mutual

/-- Emit the code of a statement, and record its numbers. -/
def Stmt.lowerLogged : Stmt → Logged Unit
  | .block statements => Stmt.lowerAllLogged statements
  | .function name body => do
    let code ← Logged.detached body.lowerLogged
    lift (declare name code)
  | .ifThen cond thenBody => do
    lift cond.lower
    let id ← Logged.freshId
    lift (emit (.gotoUnless (.label (ifLabel id))))
    thenBody.lowerLogged
    lift (emit (.label (ifLabel id)))
  | .ifElse cond thenBody elseBody => do
    lift cond.lower
    let id ← Logged.freshId
    lift (emit (.gotoUnless (.label (ifLabel id))))
    thenBody.lowerLogged
    lift (emit (.goto (.label (contLabel id))))
    lift (emit (.label (ifLabel id)))
    elseBody.lowerLogged
    lift (emit (.label (contLabel id)))
  | .whileDo cond body => do
    let id ← Logged.freshId
    lift (emit (.label (whileLabel id)))
    lift cond.lower
    lift (emit (.gotoUnless (.label (contLabel id))))
    body.lowerLogged
    lift (emit (.goto (.label (whileLabel id))))
    lift (emit (.label (contLabel id)))
  | s => lift s.lower

/-- Emit the code of statements in order, and record their numbers. -/
def Stmt.lowerAllLogged : List Stmt → Logged Unit
  | [] => pure ()
  | s :: rest => do
    s.lowerLogged
    Stmt.lowerAllLogged rest

/-- Emit the code of the statements of a body, and record their numbers. -/
def Body.lowerLogged : Body → Logged Unit
  | .block statements | .program statements => Stmt.lowerAllLogged statements
  | .foreign kind => throw (.noStatements kind)

end

/-- Emit the code of a program, record its numbers, and return the whole buffer. -/
def Body.generateLogged : Body → Logged (List Instr)
  | .program statements => do
    lift (emitAll preamble)
    Stmt.lowerAllLogged statements
    lift do
      emit .halt
      return (← get).code
  | root => throw (.badRoot root.kind)

/-- Carry out an action of a generator, and record its numbers. -/
def Action.runLogged : Action → Logged Reply
  | lowerStmt s => do s.lowerLogged; return .done
  | lowerBody b => do b.lowerLogged; return .done
  | generate root => return .number (← root.generateLogged).length
  | freshId => return .number (← Logged.freshId)
  | action => lift action.run

/-! ## The record and the counter -/

namespace Logged

/-- One action runs as the other does, and records the numbers from the counter before to the
counter after. -/
def Counts (x : Logged α) (act : Gen α) : Prop :=
  ∀ ids g, g.nextId ≤ (act.after g).nextId ∧
    x.run (ids, g) =
      (lift act).run (ids ++ List.range' g.nextId ((act.after g).nextId - g.nextId), g)

namespace Counts

theorem lift {act : Gen α} (h : ∀ g, (act.after g).nextId = g.nextId) :
    Counts (Logged.lift act) act := by
  intro ids g
  simp [h g]

theorem of_appends {act : Gen α} (h : Appends written act) : Counts (Logged.lift act) act :=
  lift h.nextId_after

theorem pure (a : α) : Counts (pure a) (pure a) := lift fun _ => rfl

theorem freshId : Counts Logged.freshId Gen.freshId := by
  intro ids g
  have hafter : (Gen.freshId.after g).nextId = g.nextId + 1 := rfl
  refine ⟨by omega, ?_⟩
  rw [hafter, Nat.add_sub_cancel_left]
  rfl

theorem bind {x : Logged α} {act : Gen α} {f : α → Logged β} {k : α → Gen β} (hx : Counts x act)
    (hf : ∀ a, Counts (f a) (k a)) : Counts (x >>= f) (act >>= k) := by
  intro ids g
  obtain ⟨hle, hrun⟩ := hx ids g
  rw [EStateM.run_bind, hrun, after_bind]
  cases hr : act.run g with
  | ok a g₁ =>
    have hg₁ : act.after g = g₁ := by rw [after, hr]
    obtain ⟨hle', hrun'⟩ := hf a (ids ++ List.range' g.nextId (g₁.nextId - g.nextId)) g₁
    rw [hg₁] at hle ⊢
    refine ⟨Nat.le_trans hle hle', ?_⟩
    -- The second record goes on where the first one ends.
    have hids : List.range' g.nextId (g₁.nextId - g.nextId) ++
        List.range' g₁.nextId (((k a).after g₁).nextId - g₁.nextId) =
          List.range' g.nextId (((k a).after g₁).nextId - g.nextId) := by
      have h := List.range'_append_1 (s := g.nextId) (m := g₁.nextId - g.nextId)
        (n := ((k a).after g₁).nextId - g₁.nextId)
      rwa [Nat.add_sub_cancel' hle, Nat.add_comm, Nat.sub_add_sub_cancel hle' hle] at h
    rw [List.append_assoc, hids] at hrun'
    simp only [run_lift, hr, EStateM.run_bind]
    exact hrun'
  | error fault g₁ =>
    have hg₁ : act.after g = g₁ := by rw [after, hr]
    rw [hg₁] at hle ⊢
    refine ⟨hle, ?_⟩
    simp only [run_lift, hr, EStateM.run_bind]

/-- What a body hands out while its code is kept apart is handed out for good. -/
theorem detached {x : Logged Unit} {act : Gen Unit} (h : Counts x act) :
    Counts (Logged.detached x) (Gen.detached act) := by
  intro ids g
  obtain ⟨hle, hrun⟩ := h ids { g with code := [] }
  have hafter : ((Gen.detached act).after g).nextId = (act.after { g with code := [] }).nextId := by
    rw [after, after, Gen.run_detached]
    cases act.run { g with code := [] } <;> rfl
  rw [hafter]
  refine ⟨hle, ?_⟩
  rw [run_detached, hrun, run_lift, run_lift, Gen.run_detached]
  cases act.run { g with code := [] } <;> rfl

/-- The record is a stretch of the numbers. -/
theorem log {x : Logged α} {act : Gen α} (h : Counts x act) (g : Generator) :
    x.log g = List.range' g.nextId ((act.after g).nextId - g.nextId) := by
  rw [Logged.log, (h [] g).2, run_lift, List.nil_append]
  cases act.run g <;> rfl

end Counts

end Logged

open Logged (Counts)

mutual

/-- Lowering a statement with a record runs as lowering does. -/
theorem Stmt.counts_lower (s : Stmt) : Counts s.lowerLogged s.lower := by
  have hexpr (e : Expr) : Counts (lift e.lower) e.lower :=
    .of_appends (e.appends_lowerTo .acc (.inr fun _ => trivial))
  have hemit (i : Instr) : Counts (lift (emit i)) (emit i) := .lift fun _ => rfl
  match s with
  | .block ss =>
    rw [Stmt.lowerLogged, Stmt.lower]
    exact Stmt.counts_lowerAll ss
  | .function f body =>
    rw [Stmt.lowerLogged, Stmt.lower]
    exact (Body.counts_lower body).detached.bind fun code => .lift fun _ => rfl
  | .ifThen cond body =>
    rw [Stmt.lowerLogged, Stmt.lower]
    refine (hexpr cond).bind fun _ => Counts.freshId.bind fun id => (hemit _).bind fun _ => ?_
    exact (Body.counts_lower body).bind fun _ => hemit _
  | .ifElse cond body body' =>
    rw [Stmt.lowerLogged, Stmt.lower]
    refine (hexpr cond).bind fun _ => Counts.freshId.bind fun id => (hemit _).bind fun _ => ?_
    refine (Body.counts_lower body).bind fun _ => (hemit _).bind fun _ => (hemit _).bind fun _ => ?_
    exact (Body.counts_lower body').bind fun _ => hemit _
  | .whileDo cond body =>
    rw [Stmt.lowerLogged, Stmt.lower]
    refine Counts.freshId.bind fun id => (hemit _).bind fun _ => (hexpr cond).bind fun _ => ?_
    refine (hemit _).bind fun _ => (Body.counts_lower body).bind fun _ => ?_
    exact (hemit _).bind fun _ => hemit _
  | .expr _ | .print _ | .draw _ | .drawFlush | .asm _ | .label _ | .goto _ | .foreign _ =>
    rw [Stmt.lowerLogged]
    · exact .of_appends (Stmt.appends_lower rfl (.inr fun _ => trivial) fun _ _ => trivial)
    all_goals simp

theorem Stmt.counts_lowerAll (ss : List Stmt) :
    Counts (Stmt.lowerAllLogged ss) (Stmt.lowerAll ss) := by
  match ss with
  | [] =>
    rw [Stmt.lowerAllLogged, Stmt.lowerAll]
    exact .pure ()
  | s :: rest =>
    rw [Stmt.lowerAllLogged, Stmt.lowerAll]
    exact (Stmt.counts_lower s).bind fun _ => Stmt.counts_lowerAll rest

theorem Body.counts_lower (body : Body) : Counts body.lowerLogged body.lower := by
  match body with
  | .block ss | .program ss =>
    rw [Body.lowerLogged, Body.lower]
    exact Stmt.counts_lowerAll ss
  | .foreign kind =>
    rw [Body.lowerLogged, Body.lower]
    exact .lift fun _ => rfl

end

theorem Body.counts_generate (root : Body) : Counts root.generateLogged root.generate := by
  cases root with
  | program ss =>
    refine Counts.bind (.lift fun _ => rfl) fun _ => (Stmt.counts_lowerAll ss).bind fun _ => ?_
    exact .lift fun _ => rfl
  | block | foreign => exact .lift fun _ => rfl

/-- Each action of a generator runs with a record as it does without. -/
theorem Action.counts_run (action : Action) : Counts action.runLogged action.run := by
  cases action with
  | lowerExpr e =>
    have he := e.appends_lowerTo .acc (.inr fun _ => trivial)
    exact .of_appends (he.bind fun _ => appends_pure _)
  | lowerStmt s => exact s.counts_lower.bind fun _ => .pure _
  | lowerBody b => exact b.counts_lower.bind fun _ => .pure _
  | generate root => exact root.counts_generate.bind fun _ => .pure _
  | freshId => exact Counts.freshId.bind fun _ => .pure _
  | emit | emitAll | push | pop | swapCode => exact .lift fun _ => rfl
  | link =>
    refine .lift fun g => ?_
    simp only [run, Gen.after, EStateM.run_bind, EStateM.run_get]
    cases LogicAsm.link g.code <;> rfl
  | print =>
    refine .lift fun g => ?_
    simp only [run, Gen.after, EStateM.run_bind, EStateM.run_get]
    cases Instr.toLines g.code <;> rfl

/-! ## The counter -/

/-- A failed action does not give numbers back. -/
theorem Stmt.nextId_le_after (s : Stmt) (g : Generator) : g.nextId ≤ (s.lower.after g).nextId :=
  (s.counts_lower [] g).1

/-- The scope of any generator: its functions have no copies inside. -/
def Generator.scope (g : Generator) : Scope where
  nextId := g.nextId
  functions f := g.functions[f]?.map (·.map Piece.own)

theorem Generator.scope_describes (g : Generator) : g.scope.Describes g := by
  refine ⟨rfl, ?_⟩
  intro f
  cases h : g.functions[f]? <;> simp [scope, h]

/-- A statement that is lowered takes a number for each control structure inside. -/
theorem Stmt.nextId_of_run {s : Stmt} {g g' : Generator} (h : s.lower.run g = .ok () g') :
    g'.nextId = g.nextId + s.within.countP isStructure := by
  rw [← run_lowerAll_singleton] at h
  obtain ⟨ps, c', hl, -, hg'⟩ := lowers_of_run [s] g.scope_describes h
  have hcount := hl.nextId_eq
  rwa [withinAll_cons, withinAll_nil, List.append_nil, ← hg'.nextId] at hcount

end LogicAsm
