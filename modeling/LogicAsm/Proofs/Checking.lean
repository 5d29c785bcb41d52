import Mathlib.Data.Finset.Insert
import Mathlib.Data.Finset.Dedup
import LogicAsm.Lowering.Stmt
import LogicAsm.Proofs.LabelTable

/-!
# Which trees can be lowered

A check of trees that makes no code and knows only the names of the declared functions. Lowering
fails just if the check fails, with the same fault, and declares the same names on the way
(`Expr.tracks_check`, `Stmt.tracks_check`): the buffer, the counter and the code of the functions
play no part.
-/

namespace LogicAsm

open Gen

/-! ## Checks -/

/-- A check in the light of the names declared so far. A fault ends it but keeps the names. -/
abbrev Check := EStateM Fault (Finset String)

namespace Check

/-- Go on unless there is a fault. -/
def pass : Except Fault α → Check Unit
  | .ok _ => pure ()
  | .error fault => throw fault

/-- A function has to be declared. -/
def known (f : String) : Check Unit := do
  unless f ∈ (← get) do throw (.unknownFunction f)

/-- Add a name. -/
def declare (f : String) : Check Unit := modify (insert f)

end Check

open Check (pass)

namespace Expr

/-- Check what has to be computed; an atom stands as it is. -/
def unlessAtom (e : Expr) (check : Check Unit) : Check Unit :=
  if e.isAtom then pure () else check

/-- Check an expression. An operator is looked at before its operands if there are two of them or
one is updated, and after its operand otherwise. -/
def check : Expr → Check Unit
  | literal _ | name _ | sensor _ _ => pure ()
  | call f => Check.known f
  | paren e => e.check
  | unary op e => do
    e.unlessAtom e.check
    pass op.asUnary
  | binary op l r => do
    pass op.asBinary
    l.unlessAtom l.check
    r.unlessAtom r.check
  | assign _ e => e.unlessAtom e.check
  | update op _ e => do
    pass op.asUpdate
    e.unlessAtom e.check
  | bare _ => throw (.badExpr "Atom")
  | foreign kind => throw (.badExpr kind)

/-- Check the arguments of a drawing: each has a text, and there is at least one. -/
def checkDrawing (args : List Expr) : Check Unit := do
  args.forM fun e => if e.text?.isSome then pure () else throw (.noText e.kind)
  if args.isEmpty then throw .noShape

end Expr

/-- Check a line of assembly: only a jump to a number with too many digits is at fault. -/
def checkLine (s : String) : Check Unit :=
  match Text.tokens s.toList with
  | .field opcode :: .field name :: _ =>
    if opcode = "jump" ∧ isNumeral name ∧ maxDigits < name.length then
      throw (.longNumber name.length)
    else pure ()
  | _ => pure ()

mutual

/-- Check a statement. -/
def Stmt.check : Stmt → Check Unit
  | .block statements => Stmt.checkAll statements
  | .expr value => value.check
  | .print args => args.forM fun e => e.unlessAtom e.check
  | .draw args => Expr.checkDrawing args
  | .asm source => checkLine (between source)
  | .function name body => do
    body.check
    Check.declare name
  | .ifThen cond body | .whileDo cond body => do
    cond.check
    body.check
  | .ifElse cond thenBody elseBody => do
    cond.check
    thenBody.check
    elseBody.check
  | .drawFlush | .label _ | .goto _ => pure ()
  | .foreign kind => throw (.badStmt kind)

/-- Check statements in order. -/
def Stmt.checkAll : List Stmt → Check Unit
  | [] => pure ()
  | s :: rest => do
    s.check
    Stmt.checkAll rest

/-- Check the statements of a body. -/
def Body.check : Body → Check Unit
  | .block statements | .program statements => Stmt.checkAll statements
  | .foreign kind => throw (.noStatements kind)

end

/-- Check the root of a tree, which has to be a program. -/
def Body.checkRoot : Body → Check Unit
  | .program statements => Stmt.checkAll statements
  | root => throw (.badRoot root.kind)

/-! ## Actions that fare as checks do -/

/-- The names of the functions that a generator knows. -/
def Generator.declared (g : Generator) : Finset String := g.functions.keys.toFinset

theorem Generator.mem_declared {g : Generator} {f : String} :
    f ∈ g.declared ↔ f ∈ g.functions := by
  rw [declared, List.mem_toFinset, Std.TreeMap.mem_keys]

/-- What a run comes to: its fault, if it fails, and the names that are declared in the end. -/
def verdict (names : σ → Finset String) :
    EStateM.Result Fault σ α → Except Fault Unit × Finset String
  | .ok _ s => (.ok (), names s)
  | .error fault s => (.error fault, names s)

namespace Gen

/-- An action fares as a check does, whatever the state. -/
def Tracks (act : Gen α) (check : Check β) : Prop :=
  ∀ g, verdict Generator.declared (act.run g) = verdict id (check.run g.declared)

/-- An action that cannot fail, and declares nothing. -/
def Quiet (act : Gen α) : Prop :=
  ∀ g, ∃ a g', act.run g = .ok a g' ∧ g'.functions = g.functions

theorem quiet_pure (a : α) : Quiet (pure a : Gen α) := fun g => ⟨a, g, rfl, rfl⟩

theorem quiet_emitAll (code : List Instr) : Quiet (emitAll code) := fun _ => ⟨_, _, rfl, rfl⟩

theorem quiet_emit (i : Instr) : Quiet (emit i) := quiet_emitAll [i]

theorem quiet_freshId : Quiet freshId := fun _ => ⟨_, _, rfl, rfl⟩

theorem quiet_settle (dest : Dest) : Quiet dest.settle := by
  cases dest with
  | acc => exact quiet_pure ()
  | var name => exact quiet_emit _

theorem Quiet.bind {x : Gen α} {f : α → Gen β} (hx : Quiet x) (hf : ∀ a, Quiet (f a)) :
    Quiet (x >>= f) := by
  intro g
  obtain ⟨a, g₁, hr, hg₁⟩ := hx g
  obtain ⟨b, g₂, hr', hg₂⟩ := hf a g₁
  exact ⟨b, g₂, by rw [EStateM.run_bind, hr]; exact hr', hg₂.trans hg₁⟩

namespace Tracks

theorem fault (fault : Fault) : Tracks (throw fault : Gen α) (throw fault : Check β) := fun _ => rfl

theorem of_quiet {act : Gen α} (h : Quiet act) (b : β) : Tracks act (pure b) := by
  intro g
  obtain ⟨a, g', hr, hg⟩ := h g
  rw [hr, EStateM.run_pure, verdict, verdict, Generator.declared, hg]
  rfl

theorem bind {x : Gen α} {f : α → Gen β} {c : Check γ} {d : γ → Check δ} (hx : Tracks x c)
    (hf : ∀ a b, Tracks (f a) (d b)) : Tracks (x >>= f) (c >>= d) := by
  intro g
  have h := hx g
  rw [EStateM.run_bind, EStateM.run_bind]
  cases hr : x.run g with
  | ok a g₁ =>
    cases hc : c.run g.declared with
    | ok b names =>
      rw [hr, hc] at h
      cases h
      exact hf a b g₁
    | error fault names => rw [hr, hc] at h; cases h
  | error fault g₁ =>
    cases hc : c.run g.declared with
    | ok b names => rw [hr, hc] at h; cases h
    | error fault' names => rw [hr, hc] at h; exact h

/-- What cannot fail may come before. -/
theorem after {x : Gen α} {f : α → Gen β} {c : Check γ} (hx : Quiet x)
    (hf : ∀ a, Tracks (f a) c) : Tracks (x >>= f) c := by
  have h := (of_quiet hx ()).bind (d := fun _ => c) fun a _ => hf a
  rwa [pure_bind] at h

/-- What cannot fail may come behind. -/
theorem andThen {x : Gen α} {f : α → Gen β} {c : Check Unit} (hx : Tracks x c)
    (hf : ∀ a, Quiet (f a)) : Tracks (x >>= f) c := by
  have h := hx.bind (d := pure) fun a b => of_quiet (hf a) b
  rwa [bind_pure] at h

theorem pass (r : Except Fault α) : Tracks (ofExcept r) (Check.pass r) := by
  cases r with
  | ok a => exact of_quiet (quiet_pure a) ()
  | error fault => exact Tracks.fault fault

theorem lookup (f : String) : Tracks (lookup f) (Check.known f) := by
  intro g
  by_cases hf : f ∈ g.functions
  · have hg := Std.TreeMap.getElem?_eq_some_getElem hf
    rw [run_lookup_of_some g hg]
    simp [Check.known, Generator.mem_declared, hf, verdict]
  · have hg := Std.TreeMap.getElem?_eq_none hf
    rw [run_lookup_of_none g hg]
    simp [Check.known, Generator.mem_declared, hf, verdict]

/-- Names that are declared on the way stay declared, whether the body succeeds or not. -/
theorem declare {act : Gen Unit} {c : Check Unit} (h : Tracks act c) (f : String) :
    Tracks (detached act >>= declare f) (c >>= fun _ => Check.declare f) := by
  refine bind ?_ ?_
  · intro g
    have hg := h { g with code := [] }
    rw [run_detached]
    cases hr : act.run { g with code := [] } with
    | ok a g' => rw [hr] at hg; exact hg
    | error fault g' => rw [hr] at hg; exact hg
  · intro code _ g
    have hinsert : Generator.declared { g with functions := g.functions.insert f code } =
        insert f g.declared := by
      ext f'
      rw [Finset.mem_insert, Generator.mem_declared, Generator.mem_declared,
        Std.TreeMap.mem_insert, Std.compare_eq_iff_eq, eq_comm]
    simp [Check.declare, verdict, hinsert]

theorem forM {xs : List α} {f : α → Gen Unit} {c : α → Check Unit}
    (h : ∀ x ∈ xs, Tracks (f x) (c x)) : Tracks (xs.forM f) (xs.forM c) := by
  induction xs with
  | nil => exact of_quiet (quiet_pure ()) ()
  | cons x xs ih =>
    rw [List.forall_mem_cons] at h
    exact h.1.bind fun _ _ => ih h.2

end Tracks

end Gen

/-! ## Expressions -/

namespace Expr

theorem tracks_operand {e : Expr} {act : Gen Unit} {c : Check Unit} (h : Tracks act c) :
    Tracks (e.operand act) (e.unlessAtom c) := by
  cases he : e.atom? with
  | some text =>
    simp only [operand, unlessAtom, isAtom, he, Option.isSome_some, if_true]
    exact .of_quiet (quiet_pure text) ()
  | none =>
    simp only [operand, unlessAtom, isAtom, he, Option.isSome_none, Bool.false_eq_true, if_false]
    exact h.andThen fun _ => quiet_pure _

theorem tracks_operands {l r : Expr} {actL actR : Gen Unit} {c d : Check Unit}
    (hl : Tracks actL c) (hr : Tracks actR d) :
    Tracks (operands l r actL actR) (do l.unlessAtom c; r.unlessAtom d) := by
  cases hatom : l.atom? with
  | some left =>
    cases hatom' : r.atom? with
    | some right =>
      simp only [operands, unlessAtom, isAtom, hatom, hatom', Option.isSome_some, if_true,
        pure_bind]
      exact .of_quiet (quiet_pure _) ()
    | none =>
      simp only [operands, unlessAtom, isAtom, hatom, hatom', Option.isSome_some, if_true,
        Option.isSome_none, Bool.false_eq_true, if_false, pure_bind]
      exact hr.andThen fun _ => quiet_pure _
  | none =>
    cases hatom' : r.atom? with
    | some right =>
      simp only [operands, unlessAtom, isAtom, hatom, hatom', Option.isSome_some, if_true,
        Option.isSome_none, Bool.false_eq_true, if_false]
      exact hl.bind fun _ _ => .of_quiet (quiet_pure _) ()
    | none =>
      simp only [operands, unlessAtom, isAtom, hatom, hatom', Option.isSome_none,
        Bool.false_eq_true, if_false]
      refine hl.bind fun _ _ => .after (quiet_emitAll _) fun _ => hr.andThen fun _ => ?_
      exact (quiet_emitAll _).bind fun _ => quiet_pure _

/-- Lowering an expression fares as its check does, wherever its value goes. -/
theorem tracks_check (e : Expr) (dest : Dest) : Tracks (e.lowerTo dest) e.check := by
  induction e generalizing dest with
  | literal | name => exact .of_quiet (quiet_emit _) ()
  | bare | foreign => exact .fault _
  | call f =>
    refine (Tracks.lookup f).andThen fun code => ?_
    exact (quiet_emitAll code).bind fun _ => quiet_settle dest
  | paren e ih => exact (ih .acc).andThen fun _ => quiet_settle dest
  | unary op e ih =>
    refine (tracks_operand (ih .acc)).bind fun arg _ => ?_
    exact (Tracks.pass op.asUnary).andThen fun _ => (quiet_emit _).bind fun _ => quiet_settle dest
  | binary op l r ihl ihr =>
    refine (Tracks.pass op.asBinary).bind fun _ _ => ?_
    exact (tracks_operands (ihl .acc) (ihr .acc)).andThen fun _ => quiet_emit _
  | assign x e ih =>
    rw [check, lowerTo]
    refine Tracks.andThen ?_ fun _ => quiet_settle dest
    -- An atom is lowered as well, but its check passes.
    cases e <;> exact ih (.var x)
  | update op x e ih =>
    refine (Tracks.pass op.asUpdate).bind fun _ _ => ?_
    exact (tracks_operand (ih .acc)).andThen fun _ => (quiet_emit _).bind fun _ => quiet_settle dest
  | sensor => exact .after (quiet_emit _) fun _ => .of_quiet (quiet_settle dest) ()

theorem tracks_lowerPrint (e : Expr) : Tracks e.lowerPrint (e.unlessAtom e.check) :=
  (tracks_operand (e.tracks_check .acc)).andThen fun _ => quiet_emit _

/-- The arguments of a drawing are read in order. -/
theorem forM_text_eq_pass (args : List Expr) :
    (args.forM fun e => if e.text?.isSome then pure () else throw (.noText e.kind) : Check Unit) =
      pass (args.mapM drawText) := by
  induction args with
  | nil => rfl
  | cons e args ih =>
    rw [List.forM_eq_forM, List.forM_cons, ← List.forM_eq_forM, ih, List.mapM_cons, drawText]
    cases e.text? with
    | none => rfl
    | some text => cases args.mapM drawText <;> rfl

theorem checkDrawing_eq_pass (args : List Expr) :
    checkDrawing args = pass (Instr.ofDrawing args) := by
  rw [checkDrawing, forM_text_eq_pass, Instr.ofDrawing]
  cases h : args.mapM drawText with
  | error fault => rfl
  | ok texts =>
    cases args with
    | nil => cases h; rfl
    | cons e args =>
      obtain ⟨text, rest, -, -, rfl⟩ := List.forall₂_cons_left_iff.mp (mapM_eq_ok_iff.mp h)
      rfl

end Expr

/-! ## Statements -/

/-- A field is no destination just if it is a number with too many digits. -/
theorem pass_map_ofField (name : String) (f : Target → Instr) :
    pass ((Target.ofField name).map f) =
      if isNumeral name ∧ maxDigits < name.length then throw (.longNumber name.length)
      else pure () := by
  unfold Target.ofField
  by_cases hn : isNumeral name
  · by_cases hd : name.length ≤ maxDigits
    · rw [if_pos hn, if_pos hd, if_neg (by omega)]
      rfl
    · rw [if_pos hn, if_neg hd, if_pos ⟨hn, by omega⟩]
      rfl
  · rw [if_neg hn, if_neg (fun h => hn h.1)]
    rfl

theorem checkLine_eq_pass (s : String) : checkLine s = pass (Instr.ofLine s) := by
  unfold checkLine Instr.ofLine
  match Text.tokens s.toList with
  | .field opcode :: .field name :: operands =>
    by_cases hl : opcode = "label"
    · subst hl
      rfl
    · by_cases hj : opcode = "jump"
      · subst hj
        simp only [String.reduceEq, if_true, if_false, true_and, pass_map_ofField]
      · simp only [hl, hj, false_and, if_false]
        rfl
  | [] | [.field _] | .quoted _ :: _ | .field _ :: .quoted _ :: _ => rfl

mutual

/-- Lowering a statement fares as its check does. -/
theorem Stmt.tracks_check (s : Stmt) : Tracks s.lower s.check := by
  match s with
  | .block ss =>
    rw [Stmt.lower, Stmt.check]
    exact Stmt.tracks_checkAll ss
  | .expr e =>
    rw [Stmt.lower, Stmt.check]
    exact e.tracks_check .acc
  | .print args =>
    rw [Stmt.lower, Stmt.check]
    exact (Tracks.forM fun e _ => e.tracks_lowerPrint).andThen fun _ => quiet_emit _
  | .draw args =>
    rw [Stmt.lower, Stmt.check]
    rw [Expr.checkDrawing_eq_pass]
    exact (Tracks.pass _).andThen fun _ => quiet_emit _
  | .asm source =>
    rw [Stmt.lower, Stmt.check]
    rw [checkLine_eq_pass]
    exact (Tracks.pass _).andThen fun _ => quiet_emit _
  | .function f body =>
    rw [Stmt.lower, Stmt.check]
    exact (Body.tracks_check body).declare f
  | .ifThen cond body =>
    rw [Stmt.lower, Stmt.check]
    refine (cond.tracks_check .acc).bind fun _ _ => ?_
    refine .after quiet_freshId fun _ => .after (quiet_emit _) fun _ => ?_
    exact (Body.tracks_check body).andThen fun _ => quiet_emit _
  | .ifElse cond body body' =>
    rw [Stmt.lower, Stmt.check]
    refine (cond.tracks_check .acc).bind fun _ _ => ?_
    refine .after quiet_freshId fun _ => .after (quiet_emit _) fun _ => ?_
    refine (Body.tracks_check body).bind fun _ _ => ?_
    refine .after (quiet_emit _) fun _ => .after (quiet_emit _) fun _ => ?_
    exact (Body.tracks_check body').andThen fun _ => quiet_emit _
  | .whileDo cond body =>
    rw [Stmt.lower, Stmt.check]
    refine .after quiet_freshId fun _ => .after (quiet_emit _) fun _ => ?_
    refine (cond.tracks_check .acc).bind fun _ _ => .after (quiet_emit _) fun _ => ?_
    refine (Body.tracks_check body).andThen fun _ => ?_
    exact (quiet_emit _).bind fun _ => quiet_emit _
  | .drawFlush | .label _ | .goto _ =>
    rw [Stmt.lower, Stmt.check]
    exact .of_quiet (quiet_emit _) ()
  | .foreign kind =>
    rw [Stmt.lower, Stmt.check]
    exact .fault _

theorem Stmt.tracks_checkAll (ss : List Stmt) : Tracks (Stmt.lowerAll ss) (Stmt.checkAll ss) := by
  match ss with
  | [] =>
    rw [Stmt.lowerAll, Stmt.checkAll]
    exact .of_quiet (quiet_pure ()) ()
  | s :: rest =>
    rw [Stmt.lowerAll, Stmt.checkAll]
    exact (Stmt.tracks_check s).bind fun _ _ => Stmt.tracks_checkAll rest

theorem Body.tracks_check (body : Body) : Tracks body.lower body.check := by
  match body with
  | .block ss | .program ss =>
    rw [Body.lower, Body.check]
    exact Stmt.tracks_checkAll ss
  | .foreign kind =>
    rw [Body.lower, Body.check]
    exact .fault _

end

theorem Body.tracks_checkRoot (root : Body) : Tracks root.generate root.checkRoot := by
  cases root with
  | program ss =>
    refine .after (quiet_emitAll _) fun _ => (Stmt.tracks_checkAll ss).andThen fun _ => ?_
    exact (quiet_emit _).bind fun _ g => ⟨_, g, rfl, rfl⟩
  | block | foreign => exact .fault _

/-- A generator fails just if the check of the tree fails in the light of the functions it knows,
and then with the same fault. The same names are declared in the end, also if it fails. Nothing
else in the state of the generator plays a part. -/
theorem lowering_follows_check (g : Generator) :
    (∀ e : Expr, verdict Generator.declared (e.lower.run g) = verdict id (e.check.run g.declared)) ∧
    (∀ s : Stmt, verdict Generator.declared (s.lower.run g) = verdict id (s.check.run g.declared)) ∧
    (∀ b : Body, verdict Generator.declared (b.lower.run g) = verdict id (b.check.run g.declared)) ∧
    ∀ root : Body, verdict Generator.declared (root.generate.run g) =
      verdict id (root.checkRoot.run g.declared) :=
  ⟨fun e => e.tracks_check .acc g, fun s => s.tracks_check g, fun b => b.tracks_check g,
    fun root => root.tracks_checkRoot g⟩

end LogicAsm
