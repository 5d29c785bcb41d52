import LogicAsm.Proofs.OwnCode

/-!
# Where instructions come from

A property holds of a whole generated code, inside and outside of copies, if it holds of what
each construct puts there itself (`Stmt.Gives.code`). So every instruction is a plain one, a label
or a jump of a control structure, or written in the program (`Body.Outline.emitted`).
-/

namespace LogicAsm

open Piece (flatten own)

/-- The instructions that statements can give rise to. -/
inductive Instr.Emitted (within : List Stmt) : Instr → Prop where
  | plain {i : Instr} (h : i.Plain) : Emitted within i
  | structLabel {name : String} {id : Nat} (h : name ∈ structLabels id) :
      Emitted within (.label name)
  | structTest {name : String} {id : Nat} (h : name ∈ structLabels id) :
      Emitted within (.gotoUnless (.label name))
  | structJump {name : String} {id : Nat} (h : name ∈ structLabels id) :
      Emitted within (.goto (.label name))
  | label {name : String} (h : .label name ∈ within) : Emitted within (.label name)
  | goto {name : String} (h : .goto name ∈ within) : Emitted within (.goto (.label name))
  | asm {source : String} {i : Instr} (h : .asm source ∈ within)
      (hi : Instr.ofLine (between source) = .ok i) : Emitted within i

/-! ## What holds of all code -/

/-- What it takes for `P` to hold of all code of statements with `Q`: it holds of the instructions
that stand for expressions and for leaves, and of the labels and jumps of control structures. -/
structure Stmt.Gives (Q : Stmt → Prop) (P : Instr → Prop) : Prop where
  computed : ∀ {s e functions ps}, Q s → e ∈ s.exprs → Expr.Lowers functions e .acc ps →
    ∀ i ∈ ownCode ps, P i
  printed : ∀ {args functions ps}, Q (.print args) → Expr.LowersPrint functions args ps →
    ∀ i ∈ ownCode ps, P i
  drawn : ∀ {args i}, Q (.draw args) → Instr.ofDrawing args = .ok i → P i
  asm : ∀ {source i}, Q (.asm source) → Instr.ofLine (between source) = .ok i → P i
  label : ∀ {name}, Q (.label name) → P (.label name)
  goto : ∀ {name}, Q (.goto name) → P (.goto (.label name))
  structLabel : ∀ {name id}, name ∈ structLabels id → P (.label name)
  structTest : ∀ {name id}, name ∈ structLabels id → P (.gotoUnless (.label name))
  structJump : ∀ {name id}, name ∈ structLabels id → P (.goto (.label name))
  fixed : ∀ i ∈ preamble ++ [.printFlush Machine.message, .drawFlush Machine.display, .halt], P i

/-- A property holds of the instructions of all declared functions. -/
def Scope.All (P : Instr → Prop) (c : Scope) : Prop :=
  ∀ f body, c.functions f = some body → ∀ i ∈ flatten body, P i

variable {P : Instr → Prop} {Q : Stmt → Prop}

/-- Instructions of one's own, and copies of declared functions. -/
theorem Scope.All.flatten {c : Scope} (hc : c.All P) (hown : ∀ i ∈ ownCode ps, P i)
    (hcopy : ∀ f body, .copy f body ∈ ps → c.functions f = some body) :
    ∀ i ∈ Piece.flatten ps, P i := by
  intro i hi
  rcases mem_flatten.mp hi with hi | ⟨f, body, hm, hi⟩
  · exact hown i (mem_ownCode.mpr hi)
  · exact hc f body (hcopy f body hm) i hi

namespace Stmt

theorem Gives.fixed_mem (hP : Gives Q P) {i : Instr}
    (hi : i ∈ [.printFlush Machine.message, .drawFlush Machine.display, .halt]) : P i :=
  hP.fixed i (List.mem_append_right _ hi)

/-- By induction on the outline, together with the declared functions. -/
theorem Gives.code (hP : Gives Q P) (h : Lowers c ss ps c') (hss : Every Q ss) (hc : c.All P) :
    (∀ i ∈ flatten ps, P i) ∧ c'.All P := by
  have hnil : ∀ i ∈ flatten [], P i := by simp
  have hcons {i : Instr} {ps : List Piece} (hi : P i) (h : ∀ i ∈ flatten ps, P i) :
      ∀ j ∈ flatten (own i :: ps), P j := by
    simpa [hi] using h
  have happend {ps qs : List Piece} (h : ∀ i ∈ flatten ps, P i) (h' : ∀ i ∈ flatten qs, P i) :
      ∀ i ∈ flatten (ps ++ qs), P i := by
    rw [Piece.flatten_append, List.forall_mem_append]
    exact ⟨h, h'⟩
  have hexpr {c : Scope} {s : Stmt} {e : Expr} {ps : List Piece} (hc : c.All P) (hs : Q s)
      (he : e ∈ s.exprs) (h : e.Lowers c.functions .acc ps) : ∀ i ∈ flatten ps, P i :=
    hc.flatten (hP.computed hs he h) fun _ _ => h.functions_of_copy
  have hif (id : Nat) : ifLabel id ∈ structLabels id := by simp [structLabels]
  have hcont (id : Nat) : contLabel id ∈ structLabels id := by simp [structLabels]
  have hwhile (id : Nat) : whileLabel id ∈ structLabels id := by simp [structLabels]
  induction h with
  | nil => exact ⟨hnil, hc⟩
  | cons _ _ ih ih' =>
    obtain ⟨hs, hrest⟩ := every_cons.mp hss
    obtain ⟨hp, hc₁⟩ := ih hs hc
    obtain ⟨hq, hc₂⟩ := ih' hrest hc₁
    exact ⟨happend hp hq, hc₂⟩
  | block _ ih => exact ih (every_block.mp hss).2 hc
  | expr h => exact ⟨hexpr hc hss.head (by simp [exprs]) h, hc⟩
  | print h =>
    have hp := hc.flatten (hP.printed hss.head h) fun _ _ => h.functions_of_copy
    exact ⟨happend hp (hcons (hP.fixed_mem (by simp)) hnil), hc⟩
  | draw h => exact ⟨hcons (hP.drawn hss.head h) hnil, hc⟩
  | drawFlush => exact ⟨hcons (hP.fixed_mem (by simp)) hnil, hc⟩
  | asm h => exact ⟨hcons (hP.asm hss.head h) hnil, hc⟩
  | @function c c' f body ss ps hb _ ih =>
    obtain ⟨hp, hc'⟩ := ih ((every_function hb).mp hss).2 hc
    refine ⟨hnil, ?_⟩
    intro g qs hg
    rw [Scope.declare_functions, Function.update_apply] at hg
    split at hg
    · cases hg
      exact hp
    · exact hc' g qs hg
  | ifThen h hb _ ih =>
    obtain ⟨hself, hbody⟩ := (every_ifThen hb).mp hss
    obtain ⟨hq, hc'⟩ := ih hbody hc
    refine ⟨?_, hc'⟩
    exact happend (happend (hexpr hc hself (by simp [exprs]) h)
      (hcons (hP.structTest (hif _)) hq)) (hcons (hP.structLabel (hif _)) hnil)
  | ifElse h hb hb' _ _ ih ih' =>
    obtain ⟨hself, hbody, hbody'⟩ := (every_ifElse hb hb').mp hss
    obtain ⟨hq, hc₁⟩ := ih hbody hc
    obtain ⟨hq', hc₂⟩ := ih' hbody' hc₁
    refine ⟨?_, hc₂⟩
    refine happend (happend (happend (hexpr hc hself (by simp [exprs]) h)
      (hcons (hP.structTest (hif _)) hq)) ?_) (hcons (hP.structLabel (hcont _)) hnil)
    exact hcons (hP.structJump (hcont _)) (hcons (hP.structLabel (hif _)) hq')
  | whileDo h hb _ ih =>
    obtain ⟨hself, hbody⟩ := (every_whileDo hb).mp hss
    obtain ⟨hq, hc'⟩ := ih hbody hc
    refine ⟨?_, hc'⟩
    refine happend (happend (hcons (hP.structLabel (hwhile _))
      (hexpr hc hself (by simp [exprs]) h)) ?_)
      (hcons (hP.structJump (hwhile _)) (hcons (hP.structLabel (hcont _)) hnil))
    exact hcons (hP.structTest (hcont _)) hq
  | label => exact ⟨hcons (hP.label hss.head) hnil, hc⟩
  | goto => exact ⟨hcons (hP.goto hss.head) hnil, hc⟩

end Stmt

/-- The property holds of the whole code of a program. -/
theorem Body.Outline.forall_flatten {ss : List Stmt} (hP : Stmt.Gives Q P)
    (hss : Stmt.Every Q ss) (h : (Body.program ss).Outline ps) : ∀ i ∈ flatten ps, P i := by
  obtain ⟨ss, qs, c', ⟨⟩, hl, rfl⟩ := h
  have hinitial : Scope.All P {} := fun _ _ hf => (nomatch hf)
  have hcode := (hP.code hl hss hinitial).1
  simp only [Piece.flatten_append, Piece.flatten_map_own, Piece.flatten_cons, Piece.code_own,
    Piece.flatten_nil, List.append_nil, List.forall_mem_append, List.forall_mem_singleton]
  exact ⟨⟨fun i hi => hP.fixed i (List.mem_append_left _ hi), hcode⟩, hP.fixed_mem (by simp)⟩

theorem Stmt.Gives.codeOf (hP : Stmt.Gives Q P) {program : Body}
    (hprogram : ∀ s ∈ program.within, Q s) {code : List Instr} (h : codeOf program = .ok code) :
    ∀ i ∈ code, P i := by
  obtain ⟨ps, hps, rfl⟩ := codeOf_eq_ok_iff.mp h
  obtain ⟨ss, _, _, rfl, _⟩ := id hps
  rw [Body.within] at hprogram
  exact hps.forall_flatten hP hprogram

/-! ## Origins -/

/-- The instructions that are the same in all programs are plain. -/
theorem Instr.plain_of_mem_fixed {i : Instr}
    (hi : i ∈ preamble ++ [.printFlush Machine.message, .drawFlush Machine.display, .halt]) :
    i.Plain := by
  simp only [preamble, List.mem_append, List.mem_map, List.mem_cons, List.not_mem_nil,
    or_false] at hi
  rcases hi with ⟨r, -, rfl⟩ | rfl | rfl | rfl <;> trivial

theorem Stmt.gives_emitted (within : List Stmt) : Stmt.Gives (· ∈ within) (·.Emitted within) where
  computed _ _ h i hi := .plain (h.plain i hi)
  printed _ h i hi := .plain (h.plain i hi)
  drawn _ h := .plain (Instr.plain_of_ofDrawing h)
  asm := .asm
  label := .label
  goto := .goto
  structLabel := .structLabel
  structTest := .structTest
  structJump := .structJump
  fixed _ hi := .plain (Instr.plain_of_mem_fixed hi)

/-- The instructions of a program come from its statements. -/
theorem Body.Outline.emitted {ss : List Stmt} (h : (Body.program ss).Outline ps) :
    ∀ i ∈ flatten ps, i.Emitted (Stmt.withinAll ss) :=
  h.forall_flatten (Stmt.gives_emitted _) fun _ hs => hs

/-- The code of a program comes from the statements inside it. -/
theorem emitted_of_codeOf {program : Body} {code : List Instr} (h : codeOf program = .ok code) :
    ∀ i ∈ code, i.Emitted program.within :=
  (Stmt.gives_emitted _).codeOf (fun _ hs => hs) h

end LogicAsm
