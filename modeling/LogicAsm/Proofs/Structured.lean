import LogicAsm.Proofs.ExprCode
import LogicAsm.Proofs.OwnCode

/-!
# Structured programs

Programs of assignments, output, branches and loops, whose conditions and printed arguments are
pure. They can be compiled: their code consists of instructions of their own, defines each label
once and jumps to no other (`exists_code_of_structured`).
-/

namespace LogicAsm

open Piece (flatten own)

/-- An expression that can stand as a statement: a pure one, or one assignment or update with a
pure value. -/
def Expr.Effect (hidden : List String) : Expr → Prop
  | assign x e | update (.update _) x e => x ∉ hidden ∧ e.Pure hidden
  | e => e.Pure hidden

/-- What is asked of each statement of a structured program. The statements inside it are looked
at on their own. -/
def Stmt.Structured : Stmt → Prop
  | .block _ | .drawFlush => True
  | .expr e => e.Effect Machine.registers
  | .print args => ∀ e ∈ args, e.Pure Machine.registers
  | .draw args => args ≠ [] ∧ ∀ e ∈ args, e.isAtom ∧ e.Pure Machine.registers
  | .ifThen cond body | .whileDo cond body =>
    cond.Pure Machine.registers ∧ ∃ ss, body.statements? = some ss
  | .ifElse cond body body' =>
    cond.Pure Machine.registers ∧ (∃ ss, body.statements? = some ss) ∧
      ∃ ss, body'.statements? = some ss
  | .asm _ | .function _ _ | .label _ | .goto _ | .foreign _ => False

/-! ## Outlines -/

namespace Expr

variable {hidden : List String}

theorem Evaluable.calls_eq_nil {e : Expr} (he : e.Evaluable hidden) : e.calls = [] := by
  induction e with
  | literal | name | sensor => rfl
  | paren e ih => exact ih he
  | unary slot e ih =>
    cases slot with
    | unary op => exact ih he
    | _ => exact he.elim
  | binary slot l r ihl ihr =>
    cases slot with
    | binary op => rw [calls, ihl he.1, ihr he.2]; rfl
    | _ => exact he.elim
  | assign x e ih => exact ih he.2
  | update slot x e ih =>
    cases slot with
    | update op => exact ih he.2
    | _ => exact he.elim
  | bare | call | foreign => exact he.elim

theorem Evaluable.exists_lowers {e : Expr} (he : e.Evaluable hidden)
    (functions : String → Option (List Piece)) (dest : Dest) :
    ∃ ps, e.Lowers functions dest ps := by
  induction e generalizing dest with
  | literal | name => exact ⟨_, .atom rfl⟩
  | paren e ih =>
    obtain ⟨ps, h⟩ := ih he .acc
    exact ⟨_, .paren h⟩
  | unary slot e ih =>
    cases slot with
    | unary op =>
      cases ha : e.atom? with
      | some text => exact ⟨_, .unaryAtom ha⟩
      | none =>
        obtain ⟨ps, h⟩ := ih he .acc
        exact ⟨_, .unary ha h⟩
    | _ => exact he.elim
  | binary slot l r ihl ihr =>
    cases slot with
    | binary op =>
      obtain ⟨ps, h⟩ := ihl he.1 .acc
      obtain ⟨qs, h'⟩ := ihr he.2 .acc
      cases hl : l.atom? with
      | some left =>
        cases hr : r.atom? with
        | some right => exact ⟨_, .binaryAtoms hl hr⟩
        | none => exact ⟨_, .binaryRight hl hr h'⟩
      | none =>
        cases hr : r.atom? with
        | some right => exact ⟨_, .binaryLeft hl hr h⟩
        | none => exact ⟨_, .binary hl hr h h'⟩
    | _ => exact he.elim
  | assign x e ih =>
    obtain ⟨ps, h⟩ := ih he.2 (.var x)
    exact ⟨_, .assign h⟩
  | update slot x e ih =>
    cases slot with
    | update op =>
      cases ha : e.atom? with
      | some text => exact ⟨_, .updateAtom ha⟩
      | none =>
        obtain ⟨ps, h⟩ := ih he.2 .acc
        exact ⟨_, .update ha h⟩
    | _ => exact he.elim
  | sensor => exact ⟨_, .sensor⟩
  | bare | call | foreign => exact he.elim

/-- The forms of an expression that stands as a statement. -/
theorem Effect.cases {e : Expr} (he : e.Effect hidden) :
    e.Pure hidden ∨
      (∃ x value, e = .assign x value ∧ x ∉ hidden ∧ value.Pure hidden) ∨
      ∃ op x value, e = .update (.update op) x value ∧ x ∉ hidden ∧ value.Pure hidden := by
  cases e with
  | assign x value => exact .inr (.inl ⟨x, value, rfl, he⟩)
  | update slot x value =>
    cases slot with
    | update op => exact .inr (.inr ⟨op, x, value, rfl, he⟩)
    | _ => exact he.elim
  | _ => exact .inl he

theorem Effect.evaluable {e : Expr} (he : e.Effect hidden) : e.Evaluable hidden := by
  rcases he.cases with he | ⟨x, value, rfl, hx, he⟩ | ⟨op, x, value, rfl, hx, he⟩
  · exact he.evaluable
  · exact ⟨hx, he.evaluable⟩
  · exact ⟨hx, he.evaluable⟩

/-- The value of an effect is not used, so it need not be found. -/
theorem Effect.delivers {e : Expr} (he : e.Effect hidden) : e.Delivers false := by
  rcases he.cases with he | ⟨x, value, rfl, hx, he⟩ | ⟨op, x, value, rfl, hx, he⟩
  · exact he.delivers false
  · exact ⟨he.delivers true, nofun⟩
  · exact ⟨he.delivers true, rfl⟩

theorem Effect.ordered {e : Expr} (he : e.Effect hidden) : e.Ordered := by
  rcases he.cases with he | ⟨x, value, rfl, hx, he⟩ | ⟨op, x, value, rfl, hx, he⟩
  all_goals exact he.ordered

theorem exists_lowersPrint {args : List Expr} (h : ∀ e ∈ args, e.Pure hidden)
    (functions : String → Option (List Piece)) : ∃ ps, LowersPrint functions args ps := by
  induction args with
  | nil => exact ⟨_, .nil⟩
  | cons e args ih =>
    rw [List.forall_mem_cons] at h
    obtain ⟨qs, hq⟩ := ih h.2
    cases ha : e.atom? with
    | some text => exact ⟨_, .atom ha hq⟩
    | none =>
      obtain ⟨ps, hp⟩ := h.1.evaluable.exists_lowers functions .acc
      exact ⟨_, .computed ha hp hq⟩

/-- The texts of atoms. -/
theorem exists_texts {args : List Expr} (h : ∀ e ∈ args, e.isAtom ∧ e.Pure hidden) :
    ∃ texts, args.mapM text? = some texts ∧ args.mapM drawText = .ok texts ∧
      ∀ text ∈ texts, text ∉ hidden := by
  induction args with
  | nil => exact ⟨[], rfl, rfl, by simp⟩
  | cons e args ih =>
    rw [List.forall_mem_cons] at h
    obtain ⟨⟨hatom, he⟩, h⟩ := h
    obtain ⟨text, ha⟩ := Option.isSome_iff_exists.mp hatom
    obtain ⟨texts, ht, hd, hn⟩ := ih h
    have htext := text?_of_atom? ha
    refine ⟨text :: texts, ?_, ?_, ?_⟩
    · rw [List.mapM_cons, htext, ht]
      rfl
    · rw [List.mapM_cons, drawText, htext, hd]
      rfl
    · rw [List.forall_mem_cons]
      exact ⟨he.evaluable.not_mem_of_atom? ha, hn⟩

/-- A drawing of atoms: the first one is the shape. -/
theorem exists_drawing {args : List Expr} (hne : args ≠ [])
    (h : ∀ e ∈ args, e.isAtom ∧ e.Pure hidden) :
    ∃ shape texts, args.mapM text? = some (shape :: texts) ∧
      Instr.ofDrawing args = .ok (.draw shape texts) ∧ ∀ text ∈ texts, text ∉ hidden := by
  obtain ⟨texts, ht, hd, hn⟩ := exists_texts h
  cases texts with
  | nil =>
    cases args with
    | nil => exact (hne rfl).elim
    | cons e args =>
      rw [List.mapM_cons, Option.bind_eq_bind, Option.bind_eq_some_iff] at ht
      obtain ⟨text, -, ht⟩ := ht
      cases hr : args.mapM text? <;> simp [hr] at ht
  | cons shape texts =>
    refine ⟨shape, texts, ht, ?_, fun text hm => hn text (List.mem_cons_of_mem _ hm)⟩
    rw [Instr.ofDrawing, hd]
    rfl

end Expr

namespace Stmt

theorem Structured.callFree {s : Stmt} (h : s.Structured) : s.CallFree := by
  intro e he
  cases s with
  | expr => cases List.mem_singleton.mp he; exact (Expr.Effect.evaluable h).calls_eq_nil
  | print => exact (h e he).evaluable.calls_eq_nil
  | ifThen | ifElse | whileDo => cases List.mem_singleton.mp he; exact h.1.evaluable.calls_eq_nil
  | block | draw | drawFlush | asm | function | label | goto | foreign => cases he

mutual

private theorem exists_lowers_of_one (s : Stmt) (h : Every Structured [s]) (c : Scope) :
    ∃ ps c', Lowers c [s] ps c' := by
  have hs : s.Structured := h.head
  match s with
  | .block ss =>
    obtain ⟨ps, c', hl⟩ := exists_lowers_of_structured ss (every_block.mp h).2 c
    exact ⟨ps, c', .block hl⟩
  | .expr e =>
    obtain ⟨ps, hp⟩ := (Expr.Effect.evaluable hs).exists_lowers c.functions .acc
    exact ⟨ps, c, .expr hp⟩
  | .print args =>
    obtain ⟨ps, hp⟩ := Expr.exists_lowersPrint hs c.functions
    exact ⟨_, c, .print hp⟩
  | .draw args =>
    obtain ⟨shape, texts, -, hd, -⟩ := Expr.exists_drawing hs.1 hs.2
    exact ⟨_, c, .draw hd⟩
  | .drawFlush => exact ⟨_, c, .drawFlush⟩
  | .ifThen cond body =>
    obtain ⟨hc, ss, hb⟩ := hs
    obtain ⟨ps, hp⟩ := hc.evaluable.exists_lowers c.functions .acc
    obtain ⟨qs, c', hq⟩ := exists_lowers_of_body body hb ((every_ifThen hb).mp h).2 c.next
    exact ⟨_, c', .ifThen hp hb hq⟩
  | .ifElse cond body body' =>
    obtain ⟨hc, ⟨ss, hb⟩, ss', hb'⟩ := hs
    obtain ⟨-, h, h'⟩ := (every_ifElse hb hb').mp h
    obtain ⟨ps, hp⟩ := hc.evaluable.exists_lowers c.functions .acc
    obtain ⟨qs, c₁, hq⟩ := exists_lowers_of_body body hb h c.next
    obtain ⟨qs', c₂, hq'⟩ := exists_lowers_of_body body' hb' h' c₁
    exact ⟨_, c₂, .ifElse hp hb hb' hq hq'⟩
  | .whileDo cond body =>
    obtain ⟨hc, ss, hb⟩ := hs
    obtain ⟨ps, hp⟩ := hc.evaluable.exists_lowers c.functions .acc
    obtain ⟨qs, c', hq⟩ := exists_lowers_of_body body hb ((every_whileDo hb).mp h).2 c.next
    exact ⟨_, c', .whileDo hp hb hq⟩
  | .asm _ | .function _ _ | .label _ | .goto _ | .foreign _ => exact hs.elim

/-- Structured statements have an outline. -/
theorem exists_lowers_of_structured (ss : List Stmt) (h : Every Structured ss) (c : Scope) :
    ∃ ps c', Lowers c ss ps c' := by
  match ss with
  | [] => exact ⟨[], c, .nil⟩
  | s :: rest =>
    obtain ⟨hs, hr⟩ := every_cons.mp h
    obtain ⟨ps, c₁, hp⟩ := exists_lowers_of_one s hs c
    obtain ⟨qs, c₂, hq⟩ := exists_lowers_of_structured rest hr c₁
    exact ⟨_, c₂, hp.cons' hq⟩

private theorem exists_lowers_of_body (body : Body) (hb : body.statements? = some ss)
    (h : Every Structured ss) (c : Scope) : ∃ ps c', Lowers c ss ps c' := by
  match body with
  | .block ss | .program ss =>
    cases hb
    exact exists_lowers_of_structured ss h c
  | .foreign _ => cases hb

end

/-- A structured program writes no labels and no jumps of its own. -/
theorem Structured.not_defines (h : Every Structured ss) (name : String) : ¬Defines ss name := by
  rintro (hl | ⟨source, ha, -⟩)
  · exact h _ hl
  · exact h _ ha

theorem Structured.not_targets (h : Every Structured ss) (name : String) : ¬Targets ss name := by
  rintro (hl | ⟨source, i, ha, -⟩)
  · exact h _ hl
  · exact h _ ha

end Stmt

/-! ## Compilation -/

theorem labelsOf_preamble : labelsOf preamble = [] := rfl

/-- A structured program can be compiled. Its code defines no label twice, and every label that
it jumps to. -/
theorem exists_code_of_structured {ss : List Stmt}
    (h : Stmt.Every Stmt.Structured ss) :
    ∃ qs c' linked, Stmt.Lowers {} ss qs c' ∧
      codeOf (.program ss) = .ok (preamble ++ flatten qs ++ [.halt]) ∧
      link (preamble ++ flatten qs ++ [.halt]) = .ok linked ∧
      (labelsOf (preamble ++ flatten qs ++ [.halt])).Nodup := by
  obtain ⟨qs, c', hl⟩ := Stmt.exists_lowers_of_structured ss h {}
  have hown : flatten qs = ownCode qs :=
    flatten_eq_ownCode (hl.own_of_callFree fun s hs => (h s hs).callFree)
  have hlabels : labelsOf (preamble ++ flatten qs ++ [.halt]) = labelsOf (ownCode qs) := by
    rw [labelsOf_append, labelsOf_append, labelsOf_preamble, hown]
    exact List.append_nil _
  have hcode : codeOf (.program ss) = .ok (preamble ++ flatten qs ++ [.halt]) :=
    codeOf_eq_ok_iff.mpr ⟨_, ⟨ss, qs, c', rfl, hl, rfl⟩, by simp⟩
  have hdefined : ∀ i ∈ preamble ++ flatten qs ++ [.halt], ∀ name,
      i.target? = some (.label name) → name ∈ labelsOf (preamble ++ flatten qs ++ [.halt]) := by
    intro i hi name ht
    rw [hlabels]
    rw [hown, List.mem_append, List.mem_append] at hi
    rcases hi with (hi | hi) | hi
    · simp only [preamble, List.mem_map] at hi
      obtain ⟨r, -, rfl⟩ := hi
      cases ht
    · exact (hl.mem_labelsOf_of_target? hi ht).resolve_right (Stmt.Structured.not_targets h name)
    · cases List.mem_singleton.mp hi
      cases ht
  obtain ⟨linked, hlink⟩ := exists_link_eq_ok hdefined
  refine ⟨qs, c', linked, hl, hcode, hlink, ?_⟩
  rw [hlabels, List.nodup_iff_count_le_one]
  exact fun name => hl.freshLabels.count_le name (Stmt.Structured.not_defines h name)

end LogicAsm
