import LogicAsm.Proofs.TextLinking

/-!
# Lines that spell their instructions

If the texts of a program are single tokens, then every printed instruction is split into its
opcode and its operands again, both before and after linking, raw lines of assembly apart. So two
instructions have the same line only if they are the same, up to a label of digits that reads like
the number of a line (`line_spells_instr`).
-/

namespace LogicAsm

open Text (IsFieldText Token WellFormed isFieldChar isInnerChar tokens)

/-! ## Texts of a program -/

namespace Text

/-- A text that is one token: a field, or a string with both quotes. -/
def IsTokenText (s : String) : Prop := ∃ t : Token, t.Closed ∧ t.text = s

theorem IsFieldText.isTokenText {s : String} (h : IsFieldText s) : IsTokenText s :=
  ⟨.field s, .field h, rfl⟩

theorem isTokenText_quoted (inner : List Char) (h : ∀ c ∈ inner, isInnerChar c = true) :
    IsTokenText (String.ofList ('"' :: inner ++ ['"'])) :=
  ⟨_, .quoted inner h, rfl⟩

/-- Texts that are tokens come from tokens that can stand on one line. -/
theorem exists_wellFormed {texts : List String} (h : ∀ s ∈ texts, IsTokenText s) :
    ∃ ts, WellFormed ts ∧ ts.map Token.text = texts := by
  induction texts with
  | nil => exact ⟨[], .nil, rfl⟩
  | cons s texts ih =>
    obtain ⟨⟨t, ht, rfl⟩, htexts⟩ := List.forall_mem_cons.mp h
    obtain ⟨ts, hts, rfl⟩ := ih htexts
    exact ⟨t :: ts, .cons ht hts, rfl⟩

end Text

open Text (IsTokenText)

/-- Each atom of an expression is one token, each name that it assigns or senses is a field, and no
attribute holds blanks or quotes. -/
def Expr.Spelled : Expr → Prop
  | literal text | name text | bare text => IsTokenText text
  | paren e | unary _ e => e.Spelled
  | binary _ l r => l.Spelled ∧ r.Spelled
  | assign x e | update _ x e => IsFieldText x ∧ e.Spelled
  | sensor block attr => IsFieldText block ∧ ∀ c ∈ attr.toList, isFieldChar c = true
  | call _ | foreign _ => True

/-- What is asked of the texts of a statement. The statements inside it are looked at on their
own, and lines of assembly may hold anything. -/
def Stmt.Spelled : Stmt → Prop
  | .expr e => e.Spelled
  | .print args | .draw args => ∀ e ∈ args, e.Spelled
  | .ifThen cond _ | .ifElse cond _ _ | .whileDo cond _ => cond.Spelled
  | .label name | .goto name => IsFieldText name
  | .block _ | .drawFlush | .asm _ | .function _ _ | .foreign _ => True

theorem Expr.Spelled.of_text? {e : Expr} (he : e.Spelled) (h : e.text? = some text) :
    IsTokenText text := by
  cases e with
  | literal | name | bare => cases h; exact he
  | _ => cases h

theorem Expr.Spelled.of_atom? {e : Expr} (he : e.Spelled) (h : e.atom? = some text) :
    IsTokenText text :=
  he.of_text? (text?_of_atom? h)

theorem Stmt.Spelled.of_mem_exprs {s : Stmt} (hs : s.Spelled) {e : Expr} (he : e ∈ s.exprs) :
    e.Spelled := by
  cases s with
  | expr | ifThen | ifElse | whileDo => cases List.mem_singleton.mp he; exact hs
  | print args => exact hs e he
  | _ => cases he

/-! ## Words of instructions -/

/-- Each word of an instruction is one token. -/
def Instr.Worded (i : Instr) : Prop := ∀ w ∈ i.words, IsTokenText w

namespace Instr

variable {dest value mnemonic left right bank addr block attr : String}

theorem worded_set (h : IsTokenText dest) (h' : IsTokenText value) : (set dest value).Worded := by
  have hset : IsTokenText "set" := IsFieldText.isTokenText (by decide)
  simp [Worded, words, hset, h, h']

theorem worded_op (hm : IsFieldText mnemonic) (h : IsTokenText dest) (hl : IsTokenText left)
    (hr : IsTokenText right) : (op mnemonic dest left right).Worded := by
  have hop : IsTokenText "op" := IsFieldText.isTokenText (by decide)
  simp [Worded, words, hop, hm.isTokenText, h, hl, hr]

theorem worded_print (h : IsTokenText value) : (print value).Worded := by
  have hprint : IsTokenText "print" := IsFieldText.isTokenText (by decide)
  simp [Worded, words, hprint, h]

/-- Instructions that name only what the machine has. -/
theorem worded_of_fields {i : Instr} (h : ∀ w ∈ i.words, IsFieldText w) : i.Worded :=
  fun w hw => (h w hw).isTokenText

theorem worded_sensor (hb : IsFieldText block) (ha : ∀ c ∈ attr.toList, isFieldChar c = true) :
    (sensor Machine.acc block ("@" ++ attr)).Worded := by
  refine worded_of_fields ?_
  have hat : IsFieldText "@" := by decide
  have hattr : IsFieldText ("@" ++ attr) := by
    refine ⟨by simp [String.append_eq_empty_iff], ?_⟩
    rw [String.toList_append, List.forall_mem_append]
    exact ⟨hat.2, ha⟩
  simp only [words, List.forall_mem_cons]
  exact ⟨by decide, by decide, hb, hattr, by simp⟩

end Instr

theorem Machine.isTokenText_acc : IsTokenText acc := IsFieldText.isTokenText (by decide)

theorem Machine.isTokenText_regB : IsTokenText regB := IsFieldText.isTokenText (by decide)

theorem BinaryOp.isFieldText_mnemonic (op : BinaryOp) : IsFieldText op.mnemonic := by
  cases op <;> decide

theorem UpdateOp.isFieldText_mnemonic (op : UpdateOp) : IsFieldText op.mnemonic := by
  cases op <;> decide

theorem UnaryOp.worded_instr (op : UnaryOp) (h : IsTokenText arg) : (op.instr arg).Worded := by
  have hminus : IsTokenText "-1" := IsFieldText.isTokenText (by decide)
  have hnull : IsTokenText Machine.null := IsFieldText.isTokenText (by decide)
  cases op with
  | neg => exact Instr.worded_op (by decide) Machine.isTokenText_acc hminus h
  | bitNot => exact Instr.worded_op (by decide) Machine.isTokenText_acc h hnull

theorem Dest.worded_settled {dest : Dest} (h : IsTokenText dest.operand) :
    ∀ i ∈ ownCode dest.settled, i.Worded := by
  cases dest with
  | acc => simp [settled]
  | var name =>
    rw [settled, ownCode_cons_own, ownCode_nil, List.forall_mem_singleton]
    exact Instr.worded_set h Machine.isTokenText_acc

/-! ## Words of generated code -/

namespace Expr

/-- By induction on the outline: atoms and names stand in the instructions as they are, and
everything else is a register or a mnemonic. -/
theorem Lowers.worded {e : Expr} (h : e.Lowers functions dest ps) (he : e.Spelled)
    (hdest : IsTokenText dest.operand) : ∀ i ∈ ownCode ps, i.Worded := by
  have hacc : IsTokenText Dest.acc.operand := Machine.isTokenText_acc
  have hpush : ∀ i ∈ pushCode Machine.acc, i.Worded := by
    intro i hi
    exact Instr.worded_of_fields (by revert i; decide)
  have hpop : ∀ i ∈ popCode Machine.regB, i.Worded := by
    intro i hi
    exact Instr.worded_of_fields (by revert i; decide)
  induction h with
  | atom ha => simpa using Instr.worded_set hdest (he.of_atom? ha)
  | call => simpa using Dest.worded_settled hdest
  | paren _ ih =>
    simp only [ownCode_append, List.forall_mem_append]
    exact ⟨ih he hacc, Dest.worded_settled hdest⟩
  | @unaryAtom e text op dest ha =>
    have he : e.Spelled := he
    simp only [ownCode_cons_own, List.forall_mem_cons]
    exact ⟨op.worded_instr (he.of_atom? ha), Dest.worded_settled hdest⟩
  | @unary e ps op dest _ _ ih =>
    simp only [ownCode_append, ownCode_cons_own, List.forall_mem_append, List.forall_mem_cons]
    exact ⟨ih he hacc, op.worded_instr hacc, Dest.worded_settled hdest⟩
  | binaryAtoms hl hr =>
    simpa using Instr.worded_op (BinaryOp.isFieldText_mnemonic _) hdest (he.1.of_atom? hl)
      (he.2.of_atom? hr)
  | binaryRight hl _ _ ih =>
    simp only [ownCode_append, ownCode_cons_own, ownCode_nil, List.forall_mem_append,
      List.forall_mem_singleton]
    exact ⟨ih he.2 hacc,
      Instr.worded_op (BinaryOp.isFieldText_mnemonic _) hdest (he.1.of_atom? hl) hacc⟩
  | binaryLeft _ hr _ ih =>
    simp only [ownCode_append, ownCode_cons_own, ownCode_nil, List.forall_mem_append,
      List.forall_mem_singleton]
    exact ⟨ih he.1 hacc,
      Instr.worded_op (BinaryOp.isFieldText_mnemonic _) hdest hacc (he.2.of_atom? hr)⟩
  | binary _ _ _ _ ih ih' =>
    simp only [ownCode_append, ownCode_cons_own, ownCode_nil, ownCode_map_own,
      List.forall_mem_append, List.forall_mem_singleton]
    exact ⟨⟨⟨⟨ih he.1 hacc, hpush⟩, ih' he.2 hacc⟩, hpop⟩,
      Instr.worded_op (BinaryOp.isFieldText_mnemonic _) hdest Machine.isTokenText_regB hacc⟩
  | assign _ ih =>
    simp only [ownCode_append, List.forall_mem_append]
    exact ⟨ih he.2 he.1.isTokenText, Dest.worded_settled hdest⟩
  | updateAtom ha =>
    have hx := he.1.isTokenText
    simp only [ownCode_cons_own, List.forall_mem_cons]
    exact ⟨Instr.worded_op (UpdateOp.isFieldText_mnemonic _) hx hx (he.2.of_atom? ha),
      Dest.worded_settled hdest⟩
  | update _ _ ih =>
    have hx := he.1.isTokenText
    simp only [ownCode_append, ownCode_cons_own, List.forall_mem_append, List.forall_mem_cons]
    exact ⟨ih he.2 hacc, Instr.worded_op (UpdateOp.isFieldText_mnemonic _) hx hx hacc,
      Dest.worded_settled hdest⟩
  | sensor =>
    simp only [ownCode_cons_own, List.forall_mem_cons]
    exact ⟨Instr.worded_sensor he.1 he.2, Dest.worded_settled hdest⟩

theorem LowersPrint.worded (h : LowersPrint functions args ps) (hargs : ∀ e ∈ args, e.Spelled) :
    ∀ i ∈ ownCode ps, i.Worded := by
  induction h with
  | nil => simp
  | atom ha _ ih =>
    obtain ⟨he, hargs⟩ := List.forall_mem_cons.mp hargs
    simp only [ownCode_cons_own, List.forall_mem_cons]
    exact ⟨Instr.worded_print (he.of_atom? ha), ih hargs⟩
  | computed _ h _ ih =>
    obtain ⟨he, hargs⟩ := List.forall_mem_cons.mp hargs
    simp only [ownCode_append, ownCode_cons_own, List.forall_mem_append, List.forall_mem_cons]
    exact ⟨h.worded he Machine.isTokenText_acc, Instr.worded_print Machine.isTokenText_acc,
      ih hargs⟩

end Expr

theorem Instr.worded_of_ofDrawing {args : List Expr} (hargs : ∀ e ∈ args, e.Spelled) {i : Instr}
    (h : Instr.ofDrawing args = .ok i) : i.Worded := by
  unfold Instr.ofDrawing at h
  cases ha : args.mapM Expr.drawText with
  | error fault => rw [ha] at h; cases h
  | ok texts =>
    rw [ha] at h
    have htexts : ∀ text ∈ texts, IsTokenText text := by
      intro text ht
      obtain ⟨e, he, htext⟩ := exists_of_forall₂ (mapM_eq_ok_iff.mp ha) ht
      refine (hargs e he).of_text? ?_
      unfold Expr.drawText at htext
      split at htext
      · cases htext
        assumption
      · cases htext
    cases texts with
    | nil => cases h
    | cons shape rest =>
      cases h
      have hdraw : IsTokenText "draw" := IsFieldText.isTokenText (by decide)
      exact List.forall_mem_cons.mpr ⟨hdraw, htexts⟩

/-! ## Tokens of instructions -/

/-- A destination whose text is a field. -/
inductive Target.Spelled : Target → Prop where
  | label {name : String} (h : IsFieldText name) : Spelled (.label name)
  | line (n : Nat) : Spelled (.line n)

theorem Target.Spelled.isFieldText {target : Target} (h : target.Spelled) :
    IsFieldText target.text := by
  cases h with
  | label h => exact h
  | line n => exact isFieldText_of_isNumeral (isNumeral_toString n)

theorem Target.Legible.spelled {target : Target} (h : target.Legible) : target.Spelled := by
  cases h with
  | label h => exact .label h
  | line n => exact .line n

theorem Target.spelled_of_link {target target' : Target} {table : LabelTable}
    (h : target.Spelled) (hlink : target.link table = .ok target') : target'.Spelled := by
  cases h with
  | line n =>
    cases hlink
    exact .line n
  | @label name =>
    rw [Target.link] at hlink
    split at hlink
    · cases hlink
      exact .line _
    · cases hlink

namespace Instr

theorem words_jumpWith (target : Target) (operands : List Token) :
    (jumpWith target operands).words = "jump" :: target.text :: operands.map Token.text := by
  rcases jumpWith_cases operands with ⟨cond, left, right, rfl⟩ | hraw
  · rfl
  · rw [hraw, words]

/-- `i.Spelled ts`: the words of `i` are the tokens `ts`. -/
inductive Spelled : Instr → List Token → Prop where
  | plain {i : Instr} {opcode : String} {operands : List Token} (h : i.Plain)
      (ho : IsFieldText opcode) (hs : WellFormed operands)
      (hwords : i.words = opcode :: operands.map Token.text) : Spelled i (.field opcode :: operands)
  | label {name : String} (h : IsFieldText name) :
      Spelled (.label name) [.field "label", .field name]
  | jump {target : Target} {operands : List Token} (h : target.Spelled)
      (hs : WellFormed operands) :
      Spelled (jumpWith target operands) (.field "jump" :: .field target.text :: operands)

namespace Spelled

variable {i j : Instr} {ts ts' : List Token}

/-- A jump with a condition and its operands. -/
theorem condJump {target : Target} (h : target.Spelled) {cond left right : String}
    (hs : ∀ s ∈ [cond, left, right], IsFieldText s) :
    (Instr.jump target cond left right).Spelled
      (.field "jump" :: .field target.text :: [cond, left, right].map .field) :=
  .jump h (Text.wellFormed_map_field hs)

theorem wellFormed (h : i.Spelled ts) : WellFormed ts := by
  cases h with
  | plain _ ho hs => exact .cons (.field ho) hs
  | label h => exact .cons (.field (by decide)) (.cons (.field h) .nil)
  | jump h hs => exact .cons (.field (by decide)) (.cons (.field h.isFieldText) hs)

theorem words_eq (h : i.Spelled ts) : ts.map Token.text = i.words := by
  cases h with
  | plain _ _ _ hwords => exact hwords.symm
  | label => rfl
  | jump => rw [words_jumpWith]; rfl

theorem tokens_line (h : i.Spelled ts) : tokens (" ".intercalate i.words).toList = ts := by
  rw [← h.words_eq]
  exact Text.tokens_intercalate h.wellFormed

theorem toLine_eq (h : i.Spelled ts) : i.toLine = .ok (" ".intercalate i.words) := by
  refine toLine_eq_ok.mpr ⟨?_, rfl⟩
  rintro kind rfl
  generalize hi : foreign kind = i at h
  cases h with
  | plain h => subst hi; exact h.elim
  | label => cases hi
  | jump =>
    have hwords := congrArg words hi
    rw [words_jumpWith] at hwords
    cases hwords

/-- Linking changes the destination of a jump, and a line number is a field as well. -/
theorem link {table : LabelTable} (h : i.Spelled ts) (hlink : i.link table = .ok j) :
    ∃ ts', j.Spelled ts' := by
  cases h with
  | plain h ho hs hwords =>
    rw [link_of_target?_eq_none table h.target?_eq_none] at hlink
    cases hlink
    exact ⟨_, .plain h ho hs hwords⟩
  | label h =>
    cases hlink
    exact ⟨_, .label h⟩
  | @jump target operands h hs =>
    obtain ⟨target', ht, rfl⟩ := exists_of_link_jumpWith hlink
    exact ⟨_, .jump (Target.spelled_of_link h ht) hs⟩

end Spelled

/-- Instructions that are read from a line are raw, or have the tokens of their own line. -/
theorem spelled_of_ofLine {s : String} {i : Instr} (h : ofLine s = .ok i) :
    (∃ text, i = .raw text) ∨ ∃ ts, i.Spelled ts := by
  obtain rfl | ⟨name, hname, rfl⟩ | ⟨target, operands, htarget, hoperands, rfl⟩ := ofLine_cases h
  · exact .inl ⟨s, rfl⟩
  · exact .inr ⟨_, .label hname⟩
  · exact .inr ⟨_, .jump htarget.spelled hoperands⟩

end Instr

/-! ## Operand counts -/

/-- The number of operands of each opcode. A jump has at least a destination and a drawing at least
a shape, and more may follow. -/
def operandCounts : List (String × Nat × Bool) := [
  ("set", 2, false), ("op", 4, false), ("write", 3, false), ("read", 3, false), ("jump", 1, true),
  ("label", 1, false), ("print", 1, false), ("printflush", 1, false), ("draw", 1, true),
  ("drawflush", 1, false), ("sensor", 3, false), ("end", 0, false)]

/-- An opcode calls for so many operands. -/
def CallsFor (opcode : String) (n : Nat) : Prop :=
  ∃ k more, (opcode, k, more) ∈ operandCounts ∧ if more then k ≤ n else n = k

theorem Instr.Plain.callsFor {i : Instr} (h : i.Plain) {opcode : String} {operands : List String}
    (hwords : i.words = opcode :: operands) : CallsFor opcode operands.length := by
  cases i with
  | jump | rawJump | label | raw | foreign => exact h.elim
  | _ => cases hwords; simp [CallsFor, operandCounts]

/-- An instruction has the number of operands that its opcode calls for. -/
theorem Instr.Spelled.callsFor {i : Instr} (h : i.Spelled ts) :
    ∃ opcode operands, ts = .field opcode :: operands ∧ CallsFor opcode operands.length := by
  cases h with
  | plain h _ _ hwords => exact ⟨_, _, rfl, by simpa using h.callsFor hwords⟩
  | label => exact ⟨_, _, rfl, by simp [CallsFor, operandCounts]⟩
  | jump => exact ⟨_, _, rfl, by simp [CallsFor, operandCounts]⟩

/-! ## Instructions with one line -/

/-- Destinations with one text: they are the same, or one is a label of digits and the other one the
line of that number. -/
inductive Target.Lookalike : Target → Target → Prop where
  | refl (target : Target) : Lookalike target target
  | labelLine (n : Nat) : Lookalike (.label (toString n)) (.line n)
  | lineLabel (n : Nat) : Lookalike (.line n) (.label (toString n))

/-- Instructions with one line: they are the same, but for destinations with one text. -/
inductive Instr.Lookalike : Instr → Instr → Prop where
  | refl (i : Instr) : Lookalike i i
  | jump {target target' : Target} {cond left right : String} (h : target.Lookalike target') :
      Lookalike (.jump target cond left right) (.jump target' cond left right)
  | rawJump {target target' : Target} {operands : List String} (h : target.Lookalike target') :
      Lookalike (.rawJump target operands) (.rawJump target' operands)

theorem Target.Lookalike.text_eq {target target' : Target} (h : target.Lookalike target') :
    target.text = target'.text := by
  cases h <;> rfl

theorem Target.Spelled.lookalike {target target' : Target} (h : target.Spelled)
    (h' : target'.Spelled) (htext : target.text = target'.text) : target.Lookalike target' := by
  cases h with
  | @label name =>
    cases h' with
    | label => cases htext; exact .refl _
    | line n => cases htext; exact .labelLine n
  | line n =>
    cases h' with
    | label => cases htext; exact .lineLabel n
    | line m =>
      have hnm : n = m := Nat.repr_injective htext
      rw [hnm]
      exact .refl _

namespace Instr

theorem Lookalike.words_eq {i j : Instr} (h : i.Lookalike j) : i.words = j.words := by
  cases h with
  | refl => rfl
  | jump h | rawJump h => simp [words, h.text_eq]

/-- Plain instructions are told apart by their opcodes and operands. -/
theorem Plain.eq_of_words_eq {i j : Instr} (hi : i.Plain) (hj : j.Plain)
    (h : i.words = j.words) : i = j := by
  cases i <;> cases j <;> simp_all [words, Plain]

theorem Plain.words_ne {i : Instr} (h : i.Plain) {opcode : String} (ho : opcode ∈ ["label", "jump"])
    (operands : List String) : i.words ≠ opcode :: operands := by
  obtain ⟨opcode', operands', hw, -, hlabel, hjump⟩ := h.words_eq
  rw [hw]
  rintro ⟨⟩
  simp only [List.mem_cons, List.not_mem_nil, or_false] at ho
  exact ho.elim hlabel hjump

theorem lookalike_jumpWith {target target' : Target} (h : target.Lookalike target')
    (operands : List Token) : (jumpWith target operands).Lookalike (jumpWith target' operands) := by
  rcases jumpWith_cases operands with ⟨cond, left, right, rfl⟩ | hraw
  · exact .jump h
  · rw [hraw, hraw]
    exact .rawJump h

namespace Spelled

variable {i j : Instr} {ts ts' : List Token}

/-- Instructions with the same tokens look alike. -/
theorem lookalike (hi : i.Spelled ts) (hj : j.Spelled ts') (hts : ts = ts') : i.Lookalike j := by
  have hwords : i.words = j.words := by rw [← hi.words_eq, ← hj.words_eq, hts]
  cases hi with
  | plain hi =>
    cases hj with
    | plain hj =>
      rw [hi.eq_of_words_eq hj hwords]
      exact .refl j
    | label => exact (hi.words_ne (by simp) _ hwords).elim
    | jump =>
      rw [words_jumpWith] at hwords
      exact (hi.words_ne (by simp) _ hwords).elim
  | label =>
    cases hj with
    | plain hj => exact (hj.words_ne (by simp) _ hwords.symm).elim
    | label => cases hts; exact .refl _
    | jump => simp at hts
  | jump h =>
    cases hj with
    | plain hj =>
      rw [words_jumpWith] at hwords
      exact (hj.words_ne (by simp) _ hwords.symm).elim
    | label => simp at hts
    | jump h' =>
      simp only [List.cons.injEq, Token.field.injEq] at hts
      obtain ⟨-, htext, rfl⟩ := hts
      exact lookalike_jumpWith (h.lookalike h' htext) _

/-- Instructions have one line just if they look alike. -/
theorem toLine_eq_iff (hi : i.Spelled ts) (hj : j.Spelled ts') :
    j.toLine = .ok (" ".intercalate i.words) ↔ i.Lookalike j := by
  rw [hj.toLine_eq, Except.ok.injEq]
  constructor
  · intro hline
    exact hi.lookalike hj (by rw [← hi.tokens_line, ← hj.tokens_line, hline])
  · intro h
    rw [h.words_eq]

end Spelled

end Instr

/-! ## Printed programs -/

/-- An instruction is raw, or its words are tokens. -/
def Instr.RawOrSpelled (i : Instr) : Prop := (∃ text, i = .raw text) ∨ ∃ ts, i.Spelled ts

theorem Instr.Worded.spelled {i : Instr} (h : i.Worded) (hplain : i.Plain) :
    ∃ ts, i.Spelled ts := by
  obtain ⟨opcode, operands, hwords, ho, -⟩ := hplain.words_eq
  obtain ⟨ts, hts, rfl⟩ := Text.exists_wellFormed
    (List.forall_mem_cons.mp (hwords ▸ h : ∀ w ∈ opcode :: operands, IsTokenText w)).2
  exact ⟨_, .plain hplain ho hts hwords⟩

theorem Stmt.gives_spelled : Stmt.Gives Stmt.Spelled Instr.RawOrSpelled where
  computed hs he h i hi :=
    .inr ((h.worded (hs.of_mem_exprs he) Machine.isTokenText_acc i hi).spelled (h.plain i hi))
  printed hs h i hi := .inr ((h.worded hs i hi).spelled (h.plain i hi))
  drawn hs h := .inr ((Instr.worded_of_ofDrawing hs h).spelled (Instr.plain_of_ofDrawing h))
  asm _ h := Instr.spelled_of_ofLine h
  label h := .inr ⟨_, .label h⟩
  goto h := .inr ⟨_, .condJump (.label h) (by decide)⟩
  structLabel h := .inr ⟨_, .label (legible_of_mem_structLabels h).1⟩
  structTest h := .inr ⟨_, .condJump (.label (legible_of_mem_structLabels h).1) (by decide)⟩
  structJump h := .inr ⟨_, .condJump (.label (legible_of_mem_structLabels h).1) (by decide)⟩
  fixed i hi := by
    have hfields :
        ∀ i ∈ preamble ++ [.printFlush Machine.message, .drawFlush Machine.display, .halt],
          ∀ w ∈ i.words, IsFieldText w := by decide
    exact .inr ((Instr.worded_of_fields (hfields i hi)).spelled (Instr.plain_of_mem_fixed hi))

/-- The code of a program holds an instruction, before or after linking. -/
def Body.Yields (program : Body) (i : Instr) : Prop :=
  ∃ code, codeOf program = .ok code ∧ (i ∈ code ∨ ∃ linked, link code = .ok linked ∧ i ∈ linked)

theorem Body.Yields.spelled {program : Body} (hprogram : ∀ s ∈ program.within, s.Spelled)
    {i : Instr} (hi : program.Yields i) (hraw : ∀ text, i ≠ .raw text) : ∃ ts, i.Spelled ts := by
  obtain ⟨code, hcode, hi⟩ := hi
  have hall := Stmt.gives_spelled.codeOf hprogram hcode
  rcases hi with hi | ⟨linked, hlink, hi⟩
  · rcases hall i hi with ⟨text, rfl⟩ | hspelled
    · exact (hraw text rfl).elim
    · exact hspelled
  · obtain ⟨j, hj, hij⟩ := exists_of_mem_link hlink hi
    rcases hall j hj with ⟨text, rfl⟩ | ⟨ts, hspelled⟩
    · cases hij
      exact (hraw text rfl).elim
    · exact hspelled.link hij

/-- The line of an instruction is split into its opcode and its operands, as many as the opcode
calls for, and no other instruction has this line, but for destinations with one text. The
instructions are those of any programs whose texts are single tokens, before or after linking, raw
lines of assembly apart. -/
theorem line_spells_instr {program : Body} (hprogram : ∀ s ∈ program.within, s.Spelled)
    {i : Instr} (hi : program.Yields i) (hraw : ∀ text, i ≠ .raw text) :
    ∃ line, i.toLine = .ok line ∧ (tokens line.toList).map Token.text = i.words ∧
      (∃ opcode operands, tokens line.toList = .field opcode :: operands ∧
        CallsFor opcode operands.length) ∧
      ∀ program' : Body, (∀ s ∈ program'.within, s.Spelled) → ∀ j, program'.Yields j →
        (∀ text, j ≠ .raw text) → (j.toLine = .ok line ↔ i.Lookalike j) := by
  obtain ⟨ts, hspelled⟩ := hi.spelled hprogram hraw
  refine ⟨_, hspelled.toLine_eq, ?_, ?_, ?_⟩
  · rw [hspelled.tokens_line, hspelled.words_eq]
  · rw [hspelled.tokens_line]
    exact hspelled.callsFor
  · intro program' hprogram' j hj hraw'
    obtain ⟨ts', hspelled'⟩ := hj.spelled hprogram' hraw'
    exact hspelled.toLine_eq_iff hspelled'

/-- A string with a blank is printed, and a label of digits stands on the line of that number. The
operand of the jump in assembly is a string that is not closed. -/
def digitLabel : List Stmt :=
  [.print [.literal "\"a b\""], .label "7", .asm "'jump 7 \"q w'", .goto "7"]

namespace digitLabel

/-- Its code. -/
def code : List Instr :=
  preamble ++ [.print "\"a b\"", .printFlush Machine.message, .label "7",
    .rawJump (.line 7) ["\"q w"], .goto (.label "7"), .halt]

theorem ofLine_eq :
    Instr.ofLine (between "'jump 7 \"q w'") = .ok (.rawJump (.line 7) ["\"q w"]) := by
  decide +kernel

theorem codeOf_eq : codeOf (.program digitLabel) = .ok code :=
  codeOf_eq_ok_iff.mpr ⟨_, ⟨digitLabel, _, _, rfl,
    .cons (.print (.atom rfl .nil)) (.cons .label (.cons (.asm ofLine_eq) .goto)), rfl⟩, rfl⟩

theorem link_eq : link code =
    .ok (preamble ++ [.print "\"a b\"", .printFlush Machine.message,
      .rawJump (.line 7) ["\"q w"], .goto (.line 7), .halt]) := rfl

theorem spelled : ∀ s ∈ (Body.program digitLabel).within, s.Spelled := by
  have hstring : IsTokenText "\"a b\"" :=
    Text.isTokenText_quoted ['a', ' ', 'b'] (by simp [isInnerChar])
  have hname : IsFieldText "7" := by decide
  simp [digitLabel, Body.within, Stmt.within, Stmt.Spelled, Expr.Spelled, hstring, hname]

end digitLabel

/-- The jump to the label and the linked jump to the line have one line, and the jump in assembly
has another. -/
theorem line_spells_instr_digitLabel :
    ∃ line, (Instr.goto (.label "7")).toLine = .ok line ∧
      (tokens line.toList).map Token.text = ["jump", "7", "always", "null", "null"] ∧
      (Instr.goto (.line 7)).toLine = .ok line ∧
      (Instr.rawJump (.line 7) ["\"q w"]).toLine ≠ .ok line := by
  have hlabel : (Body.program digitLabel).Yields (.goto (.label "7")) :=
    ⟨_, digitLabel.codeOf_eq, .inl (by simp [digitLabel.code])⟩
  have hline : (Body.program digitLabel).Yields (.goto (.line 7)) :=
    ⟨_, digitLabel.codeOf_eq, .inr ⟨_, digitLabel.link_eq, by simp⟩⟩
  have hraw : (Body.program digitLabel).Yields (.rawJump (.line 7) ["\"q w"]) :=
    ⟨_, digitLabel.codeOf_eq, .inl (by simp [digitLabel.code])⟩
  obtain ⟨line, hprint, htokens, -, hsame⟩ :=
    line_spells_instr digitLabel.spelled hlabel (fun _ => nofun)
  refine ⟨line, hprint, htokens, ?_, ?_⟩
  · exact (hsame _ digitLabel.spelled _ hline fun _ => nofun).mpr (.jump (.labelLine 7))
  · intro hj
    cases (hsame _ digitLabel.spelled _ hraw fun _ => nofun).mp hj

end LogicAsm
