import LogicAsm.Proofs.LineGrammar
import LogicAsm.Proofs.Spelling

/-!
# Instructions read back from their lines

An instruction is printed on a line, and read from it. The instructions that come back as they were
are those that can be read at all (`Instr.Restored`, `Instr.restored_of_ofLine`): labels and jumps
whose texts are tokens, and lines of neither form. The other instructions of the machine come back
as the line they were printed on (`line_restores_instr`).
-/

namespace LogicAsm

namespace Text

/-! ## Texts on one line -/

/-- A string that is not closed, and so takes the rest of its line. -/
def IsUnclosedText (s : String) : Prop := ∃ t : Token, t.Open ∧ t.text = s

/-- Texts that can stand on a line one behind the other: all of them are tokens, but the last may be
a string that is not closed. -/
def OnOneLine (texts : List String) : Prop :=
  (∀ s ∈ texts.dropLast, IsTokenText s) ∧ ∀ s ∈ texts.getLast?, IsTokenText s ∨ IsUnclosedText s

variable {s s' : String} {texts : List String} {ts : List Token}

theorem onOneLine_nil : OnOneLine [] := ⟨nofun, nofun⟩

theorem onOneLine_singleton : OnOneLine [s] ↔ IsTokenText s ∨ IsUnclosedText s := by
  simp [OnOneLine]

theorem onOneLine_cons_cons :
    OnOneLine (s :: s' :: texts) ↔ IsTokenText s ∧ OnOneLine (s' :: texts) := by
  simp only [OnOneLine, List.dropLast_cons_cons, List.forall_mem_cons, List.getLast?_cons_cons,
    and_assoc]

/-- Such texts are those of the tokens of a line. -/
theorem onOneLine_iff : OnOneLine texts ↔ ∃ ts, WellFormed ts ∧ ts.map Token.text = texts := by
  constructor
  · intro h
    induction texts with
    | nil => exact ⟨[], .nil, rfl⟩
    | cons s texts ih =>
      cases texts with
      | nil =>
        obtain ⟨t, ht, rfl⟩ | ⟨t, ht, rfl⟩ := onOneLine_singleton.mp h
        · exact ⟨[t], .cons ht .nil, rfl⟩
        · exact ⟨[t], .last ht, rfl⟩
      | cons s' texts =>
        obtain ⟨⟨t, ht, rfl⟩, htexts⟩ := onOneLine_cons_cons.mp h
        obtain ⟨ts, hts, hmap⟩ := ih htexts
        exact ⟨t :: ts, .cons ht hts, congrArg (t.text :: ·) hmap⟩
  · rintro ⟨ts, hts, rfl⟩
    induction hts with
    | nil => exact onOneLine_nil
    | last ht => exact onOneLine_singleton.mpr (.inr ⟨_, ht, rfl⟩)
    | @cons t ts ht _ ih =>
      cases ts with
      | nil => exact onOneLine_singleton.mpr (.inl ⟨t, ht, rfl⟩)
      | cons t' ts => exact onOneLine_cons_cons.mpr ⟨⟨t, ht, rfl⟩, ih⟩

theorem not_isFieldText_quote (cs : List Char) : ¬IsFieldText (String.ofList ('"' :: cs)) := by
  intro h
  have hquote := h.2 '"' (by simp)
  simp [isFieldChar] at hquote

/-- Tokens are fields if their texts are. -/
theorem WellFormed.eq_map_field (h : WellFormed ts) (hs : ∀ s ∈ ts.map Token.text, IsFieldText s) :
    ts = (ts.map Token.text).map .field := by
  induction h with
  | nil => rfl
  | last ht =>
    obtain ⟨inner, -⟩ := ht
    exact (not_isFieldText_quote inner (hs _ List.mem_cons_self)).elim
  | cons ht _ ih =>
    rw [List.map_cons, List.forall_mem_cons] at hs
    cases ht with
    | field => exact congrArg _ (ih hs.2)
    | quoted inner => exact (not_isFieldText_quote _ hs.1).elim

end Text

open Text (IsFieldText OnOneLine Token WellFormed)

/-! ## Instructions that come back -/

/-- An instruction that can be read back from its line. -/
inductive Instr.Restored : Instr → Prop where
  | label {name : String} (h : IsFieldText name) : Restored (.label name)
  | jump {target : Target} {cond left right : String} (h : target.Legible)
      (hs : ∀ s ∈ [cond, left, right], IsFieldText s) : Restored (.jump target cond left right)
  | rawJump {target : Target} {operands : List String} (h : target.Legible)
      (hs : OnOneLine operands)
      (hform : ¬(operands.length = 3 ∧ ∀ s ∈ operands, IsFieldText s)) :
      Restored (.rawJump target operands)
  | raw {text : String} (h : IsOtherLine text.toList) : Restored (.raw text)

namespace Instr

/-- Three fields behind its destination make a jump one with a condition. -/
theorem jumpWith_eq_rawJump_iff (target : Target) {ts : List Token} (h : WellFormed ts) :
    jumpWith target ts = .rawJump target (ts.map Token.text) ↔
      ¬((ts.map Token.text).length = 3 ∧ ∀ s ∈ ts.map Token.text, IsFieldText s) := by
  constructor
  · rintro hj ⟨hlength, hs⟩
    obtain ⟨cond, left, right, htexts⟩ := List.length_eq_three.mp hlength
    rw [h.eq_map_field hs, htexts] at hj
    cases hj
  · intro hform
    obtain ⟨cond, left, right, rfl⟩ | hj := jumpWith_cases ts
    · refine (hform ⟨rfl, ?_⟩).elim
      simp only [List.map_cons, List.map_nil, Text.wellFormed_cons_field] at h
      obtain ⟨hc, hl, hr, -⟩ := h
      simp [Token.text, hc, hl, hr]
    · exact hj target

variable {i : Instr}

/-- What is legible comes back, unless it is an instruction of the machine. -/
theorem restored_iff : i.Restored ↔ i.Legible ∧ ¬i.Plain := by
  constructor
  · intro h
    cases h with
    | label h => exact ⟨.label h, id⟩
    | jump h hs => exact ⟨.jump h hs, id⟩
    | rawJump h hs hform =>
      obtain ⟨ts, hts, rfl⟩ := Text.onOneLine_iff.mp hs
      exact ⟨.rawJump h hts ((jumpWith_eq_rawJump_iff _ hts).mpr hform), id⟩
    | raw h => exact ⟨.raw (ofLine_of_isOtherLine h), id⟩
  · rintro ⟨h, hplain⟩
    cases h with
    | plain h => exact (hplain h).elim
    | label h => exact .label h
    | jump h hs => exact .jump h hs
    | rawJump h hts hform =>
      exact .rawJump h (Text.onOneLine_iff.mpr ⟨_, hts, rfl⟩)
        ((jumpWith_eq_rawJump_iff _ hts).mp hform)
    | raw h => exact .raw (ofLine_eq_raw_iff.mp h).2

/-- Whatever is read from a line can be read back. -/
theorem restored_of_ofLine {s : String} (h : ofLine s = .ok i) : i.Restored := by
  refine restored_iff.mpr ⟨legible_of_ofLine h, ?_⟩
  cases reads_iff.mp h <;> exact id

theorem Restored.reread_eq (h : i.Restored) : i.reread = i := by
  cases h <;> rfl

theorem toLine_bind_ofLine_iff : i.toLine >>= ofLine = .ok i ↔ i.Restored := by
  constructor
  · intro h
    obtain ⟨line, -, hread⟩ := bind_eq_ok_iff.mp h
    exact restored_of_ofLine hread
  · intro h
    have hlegible := (restored_iff.mp h).1
    have hread := hlegible.ofLine_line
    rw [h.reread_eq] at hread
    rw [hlegible.toLine_eq]
    exact hread

end Instr

/-- Which instructions come back from their lines. An instruction does just if it is a label with a
field for a name, a jump with a destination and operands that can be read, or a line of neither
form; what is read from any line is such an instruction. Every other instruction that can be printed
comes back as its line. -/
theorem line_restores_instr :
    (∀ i : Instr, i.toLine >>= Instr.ofLine = .ok i ↔ i.Restored) ∧
    (∀ s, (Instr.ofLine s >>= fun i => i.toLine >>= Instr.ofLine) = Instr.ofLine s) ∧
    ∀ i : Instr, i.Plain → ∃ line, i.toLine = .ok line ∧ Instr.ofLine line = .ok (.raw line) := by
  refine ⟨fun i => Instr.toLine_bind_ofLine_iff, ?_, ?_⟩
  · intro s
    cases hs : Instr.ofLine s with
    | error fault => rfl
    | ok i => exact Instr.toLine_bind_ofLine_iff.mpr (Instr.restored_of_ofLine hs)
  · intro i hi
    have hlegible := Instr.Legible.plain hi
    have hread := hlegible.ofLine_line
    rw [hi.reread_eq] at hread
    exact ⟨_, hlegible.toLine_eq, hread⟩

/-- Operands that come back, the last of them a string that is not closed; a negative number, which
reads as a label; and an assignment, which comes back as its line. -/
theorem line_restores_instr_negative :
    ((Instr.rawJump (.label "x") ["a", "\"b c\"", "\"d "]).toLine >>= Instr.ofLine =
        .ok (.rawJump (.label "x") ["a", "\"b c\"", "\"d "])) ∧
      ((Instr.goto (.line (-1))).toLine >>= Instr.ofLine ≠ .ok (.goto (.line (-1)))) ∧
      ∃ line, (Instr.set "x" "jump y").toLine = .ok line ∧ Instr.ofLine line = .ok (.raw line) := by
  refine ⟨(line_restores_instr.1 _).mpr ?_, mt (line_restores_instr.1 _).mp ?_,
    line_restores_instr.2.2 _ trivial⟩
  · have hunclosed : Text.IsUnclosedText "\"d " :=
      ⟨.quoted "\"d ", .quoted ['d', ' '] (by simp [Text.isInnerChar]), rfl⟩
    have hquoted : Text.IsTokenText "\"b c\"" :=
      Text.isTokenText_quoted ['b', ' ', 'c'] (by simp [Text.isInnerChar])
    have hfield : Text.IsTokenText "a" := Text.IsFieldText.isTokenText (by decide)
    refine .rawJump (.label (by decide) (by decide)) ?_ ?_
    · rw [Text.onOneLine_cons_cons, Text.onOneLine_cons_cons, Text.onOneLine_singleton]
      exact ⟨hfield, hquoted, .inr hunclosed⟩
    · rintro ⟨-, hs⟩
      revert hs
      decide
  · intro h
    cases h with
    | jump h => cases h

end LogicAsm
