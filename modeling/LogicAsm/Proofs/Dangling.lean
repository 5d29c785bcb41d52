import LogicAsm.Proofs.Parallel
import LogicAsm.Proofs.TextLinking

/-!
# Jumps to undefined labels

A jump that lowering makes up goes to a label in the same piece of code: in the code of a
statement, and in the code of each declared function, so also in every copy of it
(`Stmt.Lowers.closed`). Thus only jumps that the program writes itself can be left without a label
(`undefined_label_written`). To tell the jumps of control structures from equal ones that are
written, the program is compared with a program that has a blank line in place of each jump and
each line of assembly (`Stmt.blank`): the code is the same line by line, but for what was written.
-/

namespace LogicAsm

open Piece (flatten own)

/-! ## Closed code -/

/-- Code that defines the labels of all its jumps, except for some. -/
def Closed (excused : String → Prop) (code : List Instr) : Prop :=
  ∀ i ∈ code, ∀ name, i.target? = some (.label name) → name ∈ labelsOf code ∨ excused name

/-- The code of every declared function is closed. -/
def Scope.Closed (excused : String → Prop) (c : Scope) : Prop :=
  ∀ f body, c.functions f = some body → LogicAsm.Closed excused (flatten body)

variable {excused : String → Prop}

/-- Closed copies, among instructions with labels of their own. -/
theorem closed_flatten {ps : List Piece}
    (hown : ∀ i ∈ ownCode ps, ∀ name, i.target? = some (.label name) →
      name ∈ labelsOf (ownCode ps) ∨ excused name)
    (hcopy : ∀ f body, .copy f body ∈ ps → Closed excused (flatten body)) :
    Closed excused (flatten ps) := by
  intro i hi name ht
  rw [mem_labelsOf, mem_flatten]
  rcases mem_flatten.mp hi with hi | ⟨f, body, hm, hi⟩
  · refine (hown i (mem_ownCode.mpr hi) name ht).imp_left fun hn => .inl ?_
    exact mem_ownCode.mp (mem_labelsOf.mp hn)
  · refine (hcopy f body hm i hi name ht).imp_left fun hn => .inr ?_
    exact ⟨f, body, hm, mem_labelsOf.mp hn⟩

namespace Stmt

/-- The copies in the code of statements are closed, and so are the functions they declare. -/
theorem Lowers.closed_copies (h : Lowers c ss ps c') (hw : ∀ name, Targets ss name → excused name)
    (hc : c.Closed excused) :
    (∀ f body, .copy f body ∈ ps → Closed excused (flatten body)) ∧ c'.Closed excused := by
  induction h with
  | nil | draw | drawFlush | asm | label | goto => exact ⟨by simp, hc⟩
  | cons _ _ ih ih' =>
    obtain ⟨hp, hc₁⟩ := ih (fun name ht => hw name (ht.mono (by simp))) hc
    obtain ⟨hq, hc₂⟩ := ih' (fun name ht => hw name (ht.mono (by simp))) hc₁
    refine ⟨?_, hc₂⟩
    intro f body hm
    exact (List.mem_append.mp hm).elim (hp f body) (hq f body)
  | block _ ih => exact ih (fun name ht => hw name (ht.mono (by simp [within]))) hc
  | expr h => exact ⟨fun f body hm => hc f body (h.functions_of_copy hm), hc⟩
  | print h =>
    refine ⟨?_, hc⟩
    intro f body hm
    simp only [List.mem_append, List.mem_singleton, reduceCtorEq, or_false] at hm
    exact hc f body (h.functions_of_copy hm)
  | @function c c' f body ss ps hb hl ih =>
    have hw' (name : String) (ht : Targets ss name) : excused name :=
      hw name (ht.mono (by simp [within, Body.within_of_statements? hb]))
    obtain ⟨hp, hc'⟩ := ih hw' hc
    refine ⟨by simp, ?_⟩
    intro g qs hg
    rw [Scope.declare_functions, Function.update_apply] at hg
    split at hg
    · cases hg
      -- The new function: its own jumps stay inside, and its copies are closed already.
      exact closed_flatten
        (fun i hi name ht => (hl.mem_labelsOf_of_target? hi ht).imp_right (hw' name)) hp
    · exact hc' g qs hg
  | @ifThen c c' cond body ss ps qs hcond hb _ ih
  | @whileDo c c' cond body ss ps qs hcond hb _ ih =>
    obtain ⟨hq, hc'⟩ := ih
      (fun name ht => hw name (ht.mono (by simp [within, Body.within_of_statements? hb]))) hc
    refine ⟨?_, hc'⟩
    intro f body' hm
    simp only [List.mem_append, List.mem_cons, List.not_mem_nil, reduceCtorEq, or_false,
      false_or] at hm
    exact hm.elim (fun hm => hc f body' (hcond.functions_of_copy hm)) (hq f body')
  | @ifElse c c₁ c₂ cond body body' ss ss' ps qs qs' hcond hb hb' _ _ ih ih' =>
    obtain ⟨hq, hc₁⟩ := ih
      (fun name ht => hw name (ht.mono (by simp [within, Body.within_of_statements? hb]))) hc
    obtain ⟨hq', hc₂⟩ := ih'
      (fun name ht => hw name (ht.mono (by simp [within, Body.within_of_statements? hb']))) hc₁
    refine ⟨?_, hc₂⟩
    intro f code hm
    simp only [List.mem_append, List.mem_cons, List.not_mem_nil, reduceCtorEq, or_false,
      false_or] at hm
    rcases hm with (hm | hm) | hm
    · exact hc f code (hcond.functions_of_copy hm)
    · exact hq f code hm
    · exact hq' f code hm

/-- The code of statements is closed, but for the jumps that are written in them. -/
theorem Lowers.closed (h : Lowers c ss ps c') (hw : ∀ name, Targets ss name → excused name)
    (hc : c.Closed excused) : Closed excused (flatten ps) :=
  closed_flatten (fun _ hi name ht => (h.mem_labelsOf_of_target? hi ht).imp_right (hw name))
    (h.closed_copies hw hc).1

end Stmt

/-- The code of a program is closed, but for the jumps that are written in it. -/
theorem closed_of_codeOf {ss : List Stmt} {code : List Instr}
    (h : codeOf (.program ss) = .ok code) : Closed (Stmt.Targets ss) code := by
  obtain ⟨_, ⟨_, ps, c', ⟨⟩, hl, rfl⟩, rfl⟩ := codeOf_eq_ok_iff.mp h
  have hclosed := hl.closed (fun _ ht => ht) fun _ _ hf => (nomatch hf)
  intro i hi name ht
  simp only [Piece.flatten_append, Piece.flatten_map_own, labelsOf_append, List.mem_append] at hi ⊢
  rcases hi with (hi | hi) | hi
  · simp only [preamble, List.mem_map] at hi
    obtain ⟨r, -, rfl⟩ := hi
    cases ht
  · exact (hclosed i hi name ht).imp_left fun hn => .inl (.inr hn)
  · cases List.mem_singleton.mp (by simpa using hi)
    cases ht

/-! ## Programs without written jumps -/

namespace Stmt

/-- A blank line in place of a jump or a line of assembly. -/
def blank : Stmt → Stmt
  | .goto _ | .asm _ => .asm ""
  | s => s

/-- The instruction is written in a program, as a jump or as a line of assembly. -/
def Writes (within : List Stmt) (i : Instr) : Prop :=
  (∃ name, .goto name ∈ within ∧ i = .goto (.label name)) ∨
    ∃ source, .asm source ∈ within ∧ Instr.ofLine (between source) = .ok i

/-- An instruction stays as it is, or it is written in the program and becomes a blank line. -/
def Blanked (within : List Stmt) (i j : Instr) : Prop := j = i ∨ Writes within i ∧ j = .raw ""

theorem isLeaf_blank (s : Stmt) (h : s.isLeaf) : s.blank.isLeaf := by
  cases s <;> first | rfl | cases h

theorem ofLine_blank : Instr.ofLine (between "") = .ok (.raw "") := by
  simp [Instr.ofLine, between]

variable {within : List Stmt}

theorem Blanked.refl (i : Instr) : Blanked within i i := .inl rfl

theorem Blanked.written {i : Instr} (h : Writes within i) : Blanked within i (.raw "") :=
  .inr ⟨h, rfl⟩

theorem parallel_refl (code : List Instr) : List.Forall₂ (Blanked within) code code :=
  List.forall₂_same.mpr fun i _ => .refl i

/-- With blank lines, the code is the same but for what is written. -/
theorem correspondence_blank :
    Correspondence within Stmt.blank (Blanked within) (Scope.Parallel (Blanked within)) where
  plain i _ := .refl i
  functions hd := hd.functions
  next hd := hd.next
  declare hd f _ _ hcode := hd.declare f hcode
  label hd name _ := by rw [hd.nextId]; exact .refl _
  test hd name _ := by rw [hd.nextId]; exact .refl _
  jump hd name _ := by rw [hd.nextId]; exact .refl _
  leaf s hs hleaf c ps c' hl d := by
    cases hl with
    | draw h => exact ⟨_, .draw h, parallel_refl _⟩
    | drawFlush => exact ⟨_, .drawFlush, parallel_refl _⟩
    | label => exact ⟨_, .label, parallel_refl _⟩
    | @asm source i c h =>
      refine ⟨_, .asm ofLine_blank, ?_⟩
      simpa using Blanked.written (.inr ⟨source, hs, h⟩)
    | @goto c name =>
      refine ⟨_, .asm ofLine_blank, ?_⟩
      simpa using Blanked.written (.inl ⟨name, hs, rfl⟩)
    | _ => cases hleaf

end Stmt

/-- A program with a blank line in place of each jump and each line of assembly. The jumps in its
code are those of control structures. -/
def Body.blank (program : Body) : Body := program.replace id Stmt.blank

theorem codeOf_blank {ss : List Stmt} {code : List Instr} (h : codeOf (.program ss) = .ok code) :
    ∃ code', codeOf (Body.program ss).blank = .ok code' ∧
      List.Forall₂ (Stmt.Blanked (Stmt.withinAll ss)) code code' := by
  obtain ⟨_, ⟨_, ps, c', ⟨⟩, hl, rfl⟩, rfl⟩ := codeOf_eq_ok_iff.mp h
  have hinitial : Scope.Parallel (Stmt.Blanked (Stmt.withinAll ss)) {} {} :=
    ⟨rfl, fun _ _ hf => (nomatch hf)⟩
  obtain ⟨qs, d', hq, hcode, -⟩ := hl.parallel Stmt.correspondence_blank (fun s hs => hs) hinitial
  rw [Body.blank, Body.replace]
  refine ⟨_, codeOf_eq_ok_iff.mpr ⟨_, ⟨_, qs, d', rfl, hq, rfl⟩, rfl⟩, ?_⟩
  simp only [Piece.flatten_append, Piece.flatten_map_own]
  exact List.rel_append (List.rel_append (Stmt.parallel_refl _) hcode) (Stmt.parallel_refl _)

/-- With blank lines, a program writes no jumps. -/
theorem Stmt.not_targets_blank (ss : List Stmt) (name : String) :
    ¬Targets (replaceAll id Stmt.blank ss) name := by
  simp only [Targets, withinAll_replaceAll isLeaf_blank, List.mem_map]
  rintro (⟨s, -, hs⟩ | ⟨source, i, ⟨s, -, hs⟩, hi, ht⟩)
  · cases s <;> simp [replace, blank] at hs
  · have hsource : source = "" := by cases s <;> simp_all [replace, blank]
    rw [hsource, ofLine_blank] at hi
    cases hi
    cases ht

/-! ## Linking of programs -/

/-- An instruction of a kind that has a line. -/
def Instr.Printable (i : Instr) : Prop := ∀ kind, i ≠ .foreign kind

theorem Instr.printable_of_ofLine {s : String} {i : Instr} (h : ofLine s = .ok i) :
    i.Printable :=
  (toLine_eq_ok.mp (legible_of_ofLine h).toLine_eq).1

theorem Instr.Emitted.printable {within : List Stmt} {i : Instr} (h : i.Emitted within) :
    i.Printable := by
  cases h with
  | plain h =>
    rintro kind rfl
    exact h.elim
  | asm _ h => exact printable_of_ofLine h
  | structLabel | structTest | structJump | label | goto => exact fun _ => Instr.noConfusion

theorem Instr.Printable.link {table : LabelTable} {i j : Instr} (hi : i.Printable)
    (h : i.link table = .ok j) : j.Printable := by
  cases i with
  | jump target | rawJump target =>
    rw [Instr.link] at h
    cases ht : target.link table with
    | error fault => rw [ht] at h; cases h
    | ok target' =>
      rw [ht] at h
      cases h
      exact fun _ => Instr.noConfusion
  | _ => cases h; exact hi

/-- Code that is linked can be printed, if its instructions can. -/
theorem exists_toLines_of_link {code linked : List Instr} (h : link code = .ok linked)
    (hcode : ∀ i ∈ code, i.Printable) : ∃ lines, Instr.toLines linked = .ok lines := by
  refine exists_mapM_eq_ok ?_
  intro j hj
  obtain ⟨i, hi, hij⟩ := exists_of_mem_link h hj
  exact ⟨_, Instr.toLine_eq_ok.mpr ⟨(hcode i hi).link hij, rfl⟩⟩

/-- Only jumps that a program writes can go to undefined labels. If a program has code but cannot be
compiled, the label at fault is that of a jump in the program, as a statement or as a line of
assembly; a program without such statements can be compiled. The jumps of control structures are
those that are left in the code if the written ones are replaced by blank lines: their labels are
all defined in the code. -/
theorem undefined_label_written {ss : List Stmt} {code : List Instr}
    (h : codeOf (.program ss) = .ok code) :
    (∀ fault, compile (.program ss) = .error fault →
        ∃ name, fault = .undefinedLabel name ∧ Stmt.Targets ss name) ∧
      ((∀ s ∈ Stmt.withinAll ss, (∀ name, s ≠ .goto name) ∧ ∀ source, s ≠ .asm source) →
        ∃ lines, compile (.program ss) = .ok lines) ∧
      ∃ code', codeOf (Body.program ss).blank = .ok code' ∧
        List.Forall₂ (Stmt.Blanked (Stmt.withinAll ss)) code code' ∧
        ∀ i ∈ code', ∀ name, i.target? = some (.label name) → .label name ∈ code := by
  have hclosed := closed_of_codeOf h
  have hprintable : ∀ i ∈ code, i.Printable := by
    obtain ⟨ps, hps, rfl⟩ := codeOf_eq_ok_iff.mp h
    exact fun i hi => (hps.emitted i hi).printable
  have hcompile : compile (.program ss) = link code >>= Instr.toLines := by
    rw [compile, h]
    rfl
  have hfault : ∀ fault, compile (.program ss) = .error fault →
      ∃ name, fault = .undefinedLabel name ∧ Stmt.Targets ss name := by
    intro fault hf
    rw [hcompile] at hf
    cases hlink : link code with
    | error fault' =>
      rw [hlink] at hf
      cases hf
      obtain ⟨i, hi, name, ht, hn, rfl⟩ := exists_jump_of_link_eq_error hlink
      exact ⟨name, rfl, (hclosed i hi name ht).resolve_left hn⟩
    | ok linked =>
      obtain ⟨lines, hlines⟩ := exists_toLines_of_link hlink hprintable
      rw [hlink] at hf
      cases hlines.symm.trans hf
  refine ⟨hfault, ?_, ?_⟩
  · intro hnone
    cases hc : compile (.program ss) with
    | ok lines => exact ⟨lines, rfl⟩
    | error fault =>
      obtain ⟨name, -, hg | ⟨source, i, ha, -⟩⟩ := hfault fault hc
      · exact ((hnone _ hg).1 name rfl).elim
      · exact ((hnone _ ha).2 source rfl).elim
  · obtain ⟨code', hcode', hsame⟩ := codeOf_blank h
    refine ⟨code', hcode', hsame, ?_⟩
    intro i hi name ht
    rw [Body.blank, Body.replace] at hcode'
    have hn := (closed_of_codeOf hcode' i hi name ht).resolve_right (Stmt.not_targets_blank ss name)
    obtain ⟨j, hj, hji | ⟨-, hji⟩⟩ := exists_of_forall₂ hsame (mem_labelsOf.mp hn)
    · exact hji ▸ hj
    · cases hji

/-- A loop in a function, which leaves by a jump to a label that is not defined. -/
def strayJump : List Stmt :=
  [.function "f" (.block [.whileDo (.name "a") (.block [.goto "out"])]), .expr (.call "f")]

namespace strayJump

/-- Its code. -/
def code : List Instr :=
  preamble ++ [.label (whileLabel 0), .set Machine.acc "a", .gotoUnless (.label (contLabel 0)),
    .goto (.label "out"), .goto (.label (whileLabel 0)), .label (contLabel 0), .halt]

theorem codeOf_eq : codeOf (.program strayJump) = .ok code :=
  codeOf_eq_ok_iff.mpr ⟨_, ⟨strayJump, _, _, rfl,
    .cons (.function rfl (.whileDo (.atom rfl) rfl .goto)) (.expr (.call rfl)), rfl⟩, rfl⟩

theorem compile_eq : compile (.program strayJump) = .error (.undefinedLabel "out") := by
  rw [compile, codeOf_eq]
  rfl

end strayJump

/-- The jump out of the loop is at fault, while the jumps of the loop itself are closed. -/
theorem undefined_label_written_strayJump :
    compile (.program strayJump) = .error (.undefinedLabel "out") ∧
      Stmt.Targets strayJump "out" ∧
      ∃ code', codeOf (Body.program strayJump).blank = .ok code' ∧
        ∀ i ∈ code', ∀ name, i.target? = some (.label name) → .label name ∈ strayJump.code := by
  obtain ⟨hfault, -, code', hcode', -, hclosed⟩ := undefined_label_written strayJump.codeOf_eq
  obtain ⟨_, ⟨⟩, ht⟩ := hfault _ strayJump.compile_eq
  exact ⟨strayJump.compile_eq, ht, code', hcode', hclosed⟩

end LogicAsm
