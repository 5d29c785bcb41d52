import Mathlib.Algebra.Group.Nat.Defs
import LogicAsm.Compile
import LogicAsm.Proofs.LabelTable
import LogicAsm.Proofs.Provenance
import LogicAsm.Proofs.Tokens

/-!
# Linking of lines

Code can be linked as it is, or printed, read and linked as lines. A line says enough of an
instruction for linking: a label or a jump is read as it was, and any other instruction is read as
a line to keep (`Instr.Legible.ofLine_toLine`). For the code of a program both ways give the same
lines (`compile_eq_linkLines`).
-/

namespace LogicAsm

open Text (IsFieldText Token WellFormed tokens)

/-! ## Numbers -/

theorem ofDigitChars_lt {cs : List Char} (h : ∀ c ∈ cs, c.isDigit = true) (init : Nat) :
    Nat.ofDigitChars 10 cs init < 10 ^ cs.length * (init + 1) := by
  induction cs generalizing init with
  | nil => simp
  | cons c cs ih =>
    rw [List.forall_mem_cons] at h
    have hc : c.toNat - 48 < 10 := by
      have hrange : 48 ≤ c.toNat ∧ c.toNat ≤ 57 := by
        simpa [Char.isDigit, UInt32.le_iff_toNat_le] using h.1
      omega
    rw [Nat.ofDigitChars_cons, List.length_cons]
    refine Nat.lt_of_lt_of_le (ih h.2 _) ?_
    rw [Nat.pow_succ, Nat.mul_assoc]
    refine Nat.mul_le_mul_left _ ?_
    have hzero : '0'.toNat = 48 := rfl
    omega

theorem isNumeral_toString (n : Nat) : isNumeral (toString n) = true := by
  have hne : toString n ≠ "" := Nat.repr_ne_empty
  have hdigits : ∀ c ∈ (toString n).toList, c.isDigit = true := by
    intro c hc
    rw [Nat.toString_eq_repr, Nat.toList_repr] at hc
    exact Nat.isDigit_of_mem_toDigits (by decide) (by decide) hc
  simp only [isNumeral, Bool.and_eq_true, bne_iff_ne, List.all_eq_true]
  exact ⟨hne, hdigits⟩

theorem isFieldText_of_isNumeral {s : String} (h : isNumeral s = true) : IsFieldText s := by
  simp only [isNumeral, Bool.and_eq_true, bne_iff_ne, List.all_eq_true] at h
  exact ⟨h.1, fun c hc => Text.isFieldChar_of_isDigit (h.2 c hc)⟩

/-! ## Destinations -/

/-- A destination that can be read from its text. -/
inductive Target.Legible : Target → Prop where
  | label {name : String} (h : IsFieldText name) (hn : isNumeral name = false) :
      Legible (.label name)
  | line (n : Nat) (h : (toString n).length ≤ maxDigits) : Legible (.line n)

namespace Target.Legible

variable {target : Target}

theorem isFieldText (h : target.Legible) : IsFieldText target.text := by
  cases h with
  | label h => exact h
  | line n h => exact isFieldText_of_isNumeral (isNumeral_toString n)

theorem ofField_text (h : target.Legible) : Target.ofField target.text = .ok target := by
  cases h with
  | label h hn => rw [Target.text, Target.ofField, hn]; rfl
  | line n h =>
    have htext : (Target.line n).text = toString n := rfl
    rw [htext, Target.ofField, if_pos (isNumeral_toString n), if_pos h, Nat.toString_eq_repr,
      Nat.toList_repr, Nat.ofDigitChars_ten_toDigits]

end Target.Legible

theorem Target.legible_of_ofField {s : String} (hs : IsFieldText s) {target : Target}
    (h : Target.ofField s = .ok target) : target.Legible := by
  unfold Target.ofField at h
  split at h
  · rename_i hn
    split at h
    · rename_i hlen
      cases h
      refine .line _ ?_
      have hdigits : ∀ c ∈ s.toList, c.isDigit = true := by
        simp only [isNumeral, Bool.and_eq_true, List.all_eq_true] at hn
        exact hn.2
      have hlt := ofDigitChars_lt hdigits 0
      have hlt' : Nat.ofDigitChars 10 s.toList 0 < 10 ^ maxDigits := by
        refine Nat.lt_of_lt_of_le hlt ?_
        rw [Nat.zero_add, Nat.mul_one, String.length_toList]
        exact Nat.pow_le_pow_right (by decide) hlen
      rw [Nat.toString_eq_repr]
      exact (Nat.length_repr_le_iff (by decide)).mpr hlt'
    · cases h
  · rename_i hn
    cases h
    exact .label hs (by simpa using hn)

/-! ## Instructions read again -/

/-- What is read from the line of an instruction: labels and jumps, and anything else as a line to
keep. -/
def Instr.reread : Instr → Instr
  | jump target cond left right => .jump target cond left right
  | rawJump target operands => .rawJump target operands
  | label name => .label name
  | raw text => .raw text
  | foreign kind => .foreign kind
  | i => .raw (" ".intercalate i.words)

/-- An instruction that linking can find out about from its line. -/
inductive Instr.Legible : Instr → Prop where
  | plain {i : Instr} (h : i.Plain) : Legible i
  | label {name : String} (h : IsFieldText name) : Legible (.label name)
  | jump {target : Target} {cond left right : String} (h : target.Legible)
      (hs : ∀ s ∈ [cond, left, right], IsFieldText s) : Legible (.jump target cond left right)
  | rawJump {target : Target} (h : target.Legible) {operands : List Token}
      (hs : WellFormed operands)
      (hform : jumpWith target operands = .rawJump target (operands.map Token.text)) :
      Legible (.rawJump target (operands.map Token.text))
  | raw {text : String} (h : ofLine text = .ok (.raw text)) : Legible (.raw text)

namespace Instr

/-- A line that starts with the opcode of a plain instruction is kept. -/
theorem ofLine_eq_raw {opcode : String} (h : IsFieldText opcode) (hlabel : opcode ≠ "label")
    (hjump : opcode ≠ "jump") (operands : List String) :
    ofLine (" ".intercalate (opcode :: operands)) =
      .ok (.raw (" ".intercalate (opcode :: operands))) := by
  obtain ⟨ts, hts⟩ : ∃ ts, tokens (" ".intercalate (opcode :: operands)).toList =
      .field opcode :: ts := by
    have hspace : " ".toList = [' '] := rfl
    cases operands with
    | nil =>
      have hend : tokens (opcode.toList ++ []) = .field opcode :: tokens [] :=
        Text.tokens_field_append h (by simp)
      exact ⟨[], by simpa using hend⟩
    | cons s operands =>
      rw [String.intercalate_cons_of_ne_nil (by simp), String.toList_append,
        String.toList_append, hspace, List.append_assoc, List.singleton_append]
      exact ⟨_, Text.tokens_field_append h (by simp [Text.isFieldChar])⟩
  unfold ofLine
  rw [hts]
  split
  · rename_i heq
    cases heq
    rw [if_neg hlabel, if_neg hjump]
  · rfl

/-- Labels and jumps are read by the tokens on their lines. -/
theorem ofLine_intercalate {ts : List Token} (h : WellFormed ts) {opcode name : String}
    {operands : List Token} (hts : ts = .field opcode :: .field name :: operands) :
    ofLine (" ".intercalate (ts.map Token.text)) =
      if opcode = "label" then .ok (.label name)
      else if opcode = "jump" then (Target.ofField name).map (jumpWith · operands)
      else .ok (.raw (" ".intercalate (ts.map Token.text))) := by
  unfold ofLine
  rw [Text.tokens_intercalate h]
  subst hts
  rfl

theorem Plain.words_eq {i : Instr} (h : i.Plain) :
    ∃ opcode operands, i.words = opcode :: operands ∧ IsFieldText opcode ∧ opcode ≠ "label" ∧
      opcode ≠ "jump" := by
  cases i with
  | jump | rawJump | label | raw | foreign => exact h.elim
  | _ => exact ⟨_, _, rfl, by decide, by decide, by decide⟩

theorem Plain.reread_eq {i : Instr} (h : i.Plain) : i.reread = .raw (" ".intercalate i.words) := by
  cases i <;> first | rfl | exact h.elim

namespace Legible

variable {i : Instr}

theorem toLine_eq (h : i.Legible) : i.toLine = .ok (" ".intercalate i.words) := by
  refine toLine_eq_ok.mpr ⟨?_, rfl⟩
  rintro kind rfl
  cases h with
  | plain h => exact h.elim

/-- The line of an instruction says what is to be linked. -/
theorem ofLine_line (h : i.Legible) : ofLine (" ".intercalate i.words) = .ok i.reread := by
  cases h with
  | plain h =>
    obtain ⟨opcode, operands, hw, hfield, hlabel, hjump⟩ := h.words_eq
    rw [h.reread_eq, hw, ofLine_eq_raw hfield hlabel hjump]
  | @label name h =>
    have hts : WellFormed [.field "label", .field name] :=
      .cons (.field (by decide)) (.cons (.field h) .nil)
    exact ofLine_intercalate hts rfl
  | @jump target cond left right h hs =>
    have hts : WellFormed (["jump", target.text, cond, left, right].map .field) := by
      refine Text.wellFormed_map_field ?_
      rw [List.forall_mem_cons, List.forall_mem_cons]
      exact ⟨by decide, h.isFieldText, hs⟩
    have hread := ofLine_intercalate hts rfl
    rw [h.ofField_text] at hread
    exact hread
  | @rawJump target h operands hs hform =>
    have hts : WellFormed (.field "jump" :: .field target.text :: operands) :=
      .cons (.field (by decide)) (.cons (.field h.isFieldText) hs)
    have hread := ofLine_intercalate hts rfl
    rw [h.ofField_text] at hread
    refine hread.trans ?_
    exact congrArg Except.ok hform
  | raw h =>
    simpa [words, reread] using h

end Legible

/-- Either three fields follow the destination of a jump, or they are kept as written. -/
theorem jumpWith_cases (operands : List Token) :
    (∃ cond left right, operands = [cond, left, right].map .field) ∨
      ∀ target, jumpWith target operands = .rawJump target (operands.map Token.text) := by
  by_cases h : ∃ cond left right, operands = [cond, left, right].map .field
  · exact .inl h
  · refine .inr fun target => ?_
    unfold jumpWith
    split
    · exact (h ⟨_, _, _, rfl⟩).elim
    · rfl

/-- Linking a jump links its destination, and keeps what follows it. -/
theorem link_jumpWith (table : LabelTable) (target : Target) (operands : List Token) :
    (jumpWith target operands).link table = (target.link table).map (jumpWith · operands) := by
  obtain ⟨cond, left, right, rfl⟩ | hj := jumpWith_cases operands
  · rfl
  · simp only [hj, link]

/-- Linking keeps the operands of a jump. -/
theorem exists_of_link_jumpWith {table : LabelTable} {target : Target} {operands : List Token}
    {j : Instr} (h : (jumpWith target operands).link table = .ok j) :
    ∃ target', target.link table = .ok target' ∧ j = jumpWith target' operands := by
  rw [link_jumpWith] at h
  cases htarget : target.link table with
  | error fault =>
    rw [htarget] at h
    cases h
  | ok target' =>
    rw [htarget] at h
    exact ⟨target', rfl, (Except.ok.inj h).symm⟩

/-- What can be read from a line: the line itself, a label, or a jump with the tokens behind its
destination. -/
theorem ofLine_cases {s : String} {i : Instr} (h : ofLine s = .ok i) :
    i = .raw s ∨ (∃ name, IsFieldText name ∧ i = .label name) ∨
      ∃ target operands, target.Legible ∧ WellFormed operands ∧ i = jumpWith target operands := by
  have hform := Text.wellFormed_tokens s.toList
  unfold ofLine at h
  split at h
  · rename_i opcode name operands heq
    rw [heq, Text.wellFormed_cons_field, Text.wellFormed_cons_field] at hform
    obtain ⟨-, hname, hoperands⟩ := hform
    split at h
    · cases h
      exact .inr (.inl ⟨name, hname, rfl⟩)
    · split at h
      · cases ht : Target.ofField name with
        | error fault =>
          rw [ht] at h
          cases h
        | ok target =>
          rw [ht] at h
          cases h
          exact .inr (.inr ⟨target, operands, Target.legible_of_ofField hname ht, hoperands, rfl⟩)
      · cases h
        exact .inl rfl
  · cases h
    exact .inl rfl

theorem legible_jumpWith {target : Target} (h : target.Legible) {operands : List Token}
    (hs : WellFormed operands) : (jumpWith target operands).Legible := by
  obtain ⟨cond, left, right, rfl⟩ | hj := jumpWith_cases operands
  · simp only [List.map_cons, List.map_nil, Text.wellFormed_cons_field] at hs
    obtain ⟨hc, hl, hr, -⟩ := hs
    exact .jump h (by simp [hc, hl, hr])
  · rw [hj]
    exact .rawJump h hs (hj target)

/-- Anything that is read from a line is legible. -/
theorem legible_of_ofLine {s : String} {i : Instr} (h : ofLine s = .ok i) : i.Legible := by
  obtain rfl | ⟨name, hname, rfl⟩ | ⟨target, operands, htarget, hoperands, rfl⟩ := ofLine_cases h
  · exact .raw h
  · exact .label hname
  · exact legible_jumpWith htarget hoperands

end Instr

/-! ## Linked lines -/

namespace Instr

@[simp] theorem label?_reread (i : Instr) : i.reread.label? = i.label? := by
  cases i <;> rfl

@[simp] theorem toLine_reread (i : Instr) : i.reread.toLine = i.toLine := by
  cases i with
  | jump | rawJump | label | foreign => rfl
  | _ => simp [reread, toLine, words]

theorem link_reread (table : LabelTable) (i : Instr) :
    i.reread.link table = (i.link table).map reread := by
  cases i with
  | jump target | rawJump target =>
    simp only [reread, link]
    cases target.link table <;> rfl
  | _ => rfl

theorem toLines_map_reread (code : List Instr) : toLines (code.map reread) = toLines code := by
  rw [toLines, List.mapM_map]
  exact congrArg code.mapM (funext toLine_reread)

end Instr

open Instr (reread)

/-- Linking has the same outcome for the code that is read again. -/
theorem link_map_reread (code : List Instr) :
    link (code.map reread) = (link code).map (List.map reread) :=
  link_map Instr.label?_reread Instr.link_reread code

/-- Legible code is linked alike as it is and by its lines. -/
theorem linkLines_of_legible {code : List Instr} (h : ∀ i ∈ code, i.Legible) :
    Instr.toLines code >>= linkLines = link code >>= Instr.toLines := by
  have hlines : Instr.toLines code = .ok (code.map fun i => " ".intercalate i.words) := by
    rw [Instr.toLines, mapM_eq_ok_iff, List.forall₂_map_right_iff, List.forall₂_same]
    exact fun i hi => (h i hi).toLine_eq
  have hread : (code.map fun i => " ".intercalate i.words).mapM Instr.ofLine =
      .ok (code.map reread) := by
    rw [List.mapM_map, mapM_eq_ok_iff, List.forall₂_map_right_iff, List.forall₂_same]
    exact fun i hi => (h i hi).ofLine_line
  calc Instr.toLines code >>= linkLines
      = linkLines (code.map fun i => " ".intercalate i.words) := by rw [hlines]; rfl
    _ = link (code.map reread) >>= Instr.toLines := by rw [linkLines, hread]; rfl
    _ = link code >>= Instr.toLines := by
      rw [link_map_reread]
      cases link code with
      | error fault => rfl
      | ok linked => exact Instr.toLines_map_reread linked

/-! ## Linked programs -/

theorem isFieldText_append {s t : String} (hs : IsFieldText s) (ht : IsFieldText t) :
    IsFieldText (s ++ t) := by
  refine ⟨?_, ?_⟩
  · intro h
    exact hs.1 (String.append_eq_empty_iff.mp h).1
  · intro c hc
    rw [String.toList_append, List.mem_append] at hc
    exact hc.elim (hs.2 c) (ht.2 c)

/-- The label of a control structure is a field, and no numeral. -/
theorem legible_of_mem_structLabels {name : String} {id : Nat} (h : name ∈ structLabels id) :
    IsFieldText name ∧ isNumeral name = false := by
  have hid : IsFieldText (toString id) := isFieldText_of_isNumeral (isNumeral_toString id)
  simp only [structLabels, List.mem_cons, List.not_mem_nil, or_false] at h
  rcases h with rfl | rfl | rfl
  all_goals refine ⟨isFieldText_append (by decide) hid, ?_⟩
  all_goals simp [isNumeral, ifLabel, contLabel, whileLabel]

theorem Target.Legible.goto {target : Target} (h : target.Legible) : (Instr.goto target).Legible :=
  .jump h (by decide)

theorem Target.Legible.gotoUnless {target : Target} (h : target.Legible) :
    (Instr.gotoUnless target).Legible :=
  .jump h (by decide)

theorem Instr.Emitted.legible {within : List Stmt} {i : Instr} (h : i.Emitted within)
    (hnames : ∀ name, .label name ∈ within ∨ .goto name ∈ within →
      IsFieldText name ∧ isNumeral name = false) : i.Legible := by
  cases h with
  | plain h => exact .plain h
  | structLabel h => exact .label (legible_of_mem_structLabels h).1
  | structTest h =>
    obtain ⟨hf, hn⟩ := legible_of_mem_structLabels h
    exact Target.Legible.gotoUnless (.label hf hn)
  | structJump h =>
    obtain ⟨hf, hn⟩ := legible_of_mem_structLabels h
    exact Target.Legible.goto (.label hf hn)
  | label h => exact .label (hnames _ (.inl h)).1
  | goto h =>
    obtain ⟨hf, hn⟩ := hnames _ (.inr h)
    exact Target.Legible.goto (.label hf hn)
  | asm _ hi => exact legible_of_ofLine hi

/-- The lines of a program can be linked before or after they are printed. Labels that the program
writes have to be fields, and no numerals; there is no condition on its lines of assembly. -/
theorem compile_eq_linkLines (program : Body)
    (hnames : ∀ name, .label name ∈ program.within ∨ .goto name ∈ program.within →
      IsFieldText name ∧ isNumeral name = false) :
    compile program = compileSymbolic program >>= linkLines := by
  unfold compile compileSymbolic
  cases hc : codeOf program with
  | error fault => rfl
  | ok code =>
    obtain ⟨ps, hps, rfl⟩ := codeOf_eq_ok_iff.mp hc
    obtain ⟨ss, qs, c', rfl, hl⟩ := hps
    have hlegible : ∀ i ∈ Piece.flatten ps, i.Legible := by
      intro i hi
      have hemitted := Body.Outline.emitted ⟨ss, qs, c', rfl, hl⟩ i hi
      rw [Body.within] at hnames
      exact hemitted.legible hnames
    exact (linkLines_of_legible hlegible).symm

/-- A loop around lines of assembly. The printed text looks like a jump, and the last operands of
the jump are a string and a field without a blank between them. -/
def handWritten : Body :=
  .program [
    .label "loop", .asm "'print \"jump  loop\"'", .asm "'jump  loop \"a b\"c'", .goto "loop"]

theorem compile_eq_linkLines_handWritten :
    (compile handWritten).toOption =
        some ["set bp 0", "set eax 0", "set ebx 0", "set ecx 0", "set edx 0",
          "print \"jump  loop\"", "jump 5 \"a b\" c", "jump 5 always null null", "end"] ∧
      compile handWritten = compileSymbolic handWritten >>= linkLines := by
  refine ⟨by decide +kernel, compile_eq_linkLines handWritten ?_⟩
  intro name hname
  obtain rfl : name = "loop" := by
    simpa [handWritten, Body.within, Stmt.within] using hname
  decide

end LogicAsm
