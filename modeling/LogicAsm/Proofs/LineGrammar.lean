import LogicAsm.Proofs.TextLinking

/-!
# The grammar of lines

A line is read by its tokens. Here the lines are described by their characters: a label or a jump
opens with two fields and a gap between them (`Opens`), and the operands of a jump are a condition
with its two sides if three fields follow, up to blanks (`IsTest`). Reading finds just these forms,
and keeps any other line (`reads_iff`, `line_read_by_form`).
-/

namespace LogicAsm

namespace Text

/-! ## Pieces of a line -/

/-- A run of blanks, which may be empty. -/
def IsBlankRun (cs : List Char) : Prop := ∀ c ∈ cs, isBlank c = true

/-- What stands between two fields: one blank or more. -/
structure IsGap (cs : List Char) : Prop where
  ne_nil : cs ≠ []
  blanks : IsBlankRun cs

/-- Where a field ends: at the end of the text, before a blank, or before a double quote. -/
inductive IsBreak : List Char → Prop where
  | nil : IsBreak []
  | blank {c : Char} {cs : List Char} (h : isBlank c = true) : IsBreak (c :: cs)
  | quote {cs : List Char} : IsBreak ('"' :: cs)

variable {s : String} {cs lead gap rest : List Char} {ts : List Token}

theorem isBreak_iff : IsBreak cs ↔ ∀ c ∈ cs.head?, isFieldChar c = false := by
  constructor
  · intro h
    cases h with
    | nil => simp
    | blank h => simp [isFieldChar, h]
    | quote => simp [isFieldChar]
  · intro h
    cases cs with
    | nil => exact .nil
    | cons c cs =>
      by_cases hc : isBlank c = true
      · exact .blank hc
      · obtain rfl : c = '"' := by simpa [isFieldChar, hc] using h c rfl
        exact .quote

theorem IsBlankRun.isBreak (h : IsBlankRun cs) : IsBreak cs := by
  cases cs with
  | nil => exact .nil
  | cons c cs => exact .blank (h c List.mem_cons_self)

theorem IsGap.isBreak_append (h : IsGap gap) (cs : List Char) : IsBreak (gap ++ cs) := by
  obtain ⟨c, gap, rfl⟩ := List.exists_cons_of_ne_nil h.ne_nil
  exact .blank (h.blanks c List.mem_cons_self)

theorem IsFieldText.not_isBreak_append (h : IsFieldText s) (cs : List Char) :
    ¬IsBreak (s.toList ++ cs) := by
  obtain ⟨c, run, hrun⟩ := List.exists_cons_of_ne_nil (l := s.toList) (by simpa using h.1)
  have hc : isFieldChar c = true := h.2 c (by rw [hrun]; exact List.mem_cons_self)
  rw [hrun, isBreak_iff]
  intro hbreak
  rw [hbreak c rfl] at hc
  cases hc

/-! ## Tokens of the pieces -/

theorem IsBlankRun.tokens_append (h : IsBlankRun lead) (cs : List Char) :
    tokens (lead ++ cs) = tokens cs := by
  induction lead with
  | nil => rfl
  | cons c lead ih =>
    rw [IsBlankRun, List.forall_mem_cons] at h
    rw [List.cons_append, tokens_blank h.1, ih h.2]

theorem tokens_eq_nil_iff : tokens cs = [] ↔ IsBlankRun cs := by
  constructor
  · intro h
    induction cs using tokens_induction with
    | nil => exact fun _ hc => nomatch hc
    | blank c cs hc ih =>
      rw [tokens_blank hc] at h
      exact List.forall_mem_cons.mpr ⟨hc, ih h⟩
    | field s cs hs hcs =>
      rw [tokens_field_append hs hcs] at h
      cases h
    | closed inner cs hinner =>
      rw [tokens_closed_append hinner] at h
      cases h
    | unclosed inner hinner =>
      rw [tokens_unclosed hinner] at h
      cases h
  · intro h
    have hcs := h.tokens_append []
    rwa [List.append_nil, tokens_nil] at hcs

/-- A text whose first token is a field: blanks may come before the field, and it does not go on. -/
theorem tokens_eq_field_cons_iff :
    tokens cs = .field s :: ts ↔
      ∃ lead rest, cs = lead ++ (s.toList ++ rest) ∧ IsBlankRun lead ∧ IsFieldText s ∧
        IsBreak rest ∧ tokens rest = ts := by
  constructor
  · intro h
    induction cs using tokens_induction with
    | nil =>
      rw [tokens_nil] at h
      cases h
    | blank c cs hc ih =>
      rw [tokens_blank hc] at h
      obtain ⟨lead, rest, rfl, hlead, hs⟩ := ih h
      exact ⟨c :: lead, rest, rfl, List.forall_mem_cons.mpr ⟨hc, hlead⟩, hs⟩
    | field s' cs hs hcs =>
      rw [tokens_field_append hs hcs] at h
      cases h
      exact ⟨[], cs, rfl, fun _ hc => (nomatch hc), hs, isBreak_iff.mpr hcs, rfl⟩
    | closed inner cs hinner =>
      rw [tokens_closed_append hinner] at h
      cases h
    | unclosed inner hinner =>
      rw [tokens_unclosed hinner] at h
      cases h
  · rintro ⟨lead, rest, rfl, hlead, hs, hrest, rfl⟩
    rw [hlead.tokens_append, tokens_field_append hs (isBreak_iff.mp hrest)]

/-- A field behind another one is set off by a gap. -/
theorem IsBreak.tokens_eq_field_cons_iff (h : IsBreak cs) :
    tokens cs = .field s :: ts ↔
      ∃ gap rest, cs = gap ++ (s.toList ++ rest) ∧ IsGap gap ∧ IsFieldText s ∧ IsBreak rest ∧
        tokens rest = ts := by
  rw [Text.tokens_eq_field_cons_iff]
  constructor
  · rintro ⟨lead, rest, rfl, hlead, hs, hrest⟩
    refine ⟨lead, rest, rfl, ⟨?_, hlead⟩, hs, hrest⟩
    rintro rfl
    exact hs.not_isBreak_append rest h
  · rintro ⟨gap, rest, rfl, hgap, hs, hrest⟩
    exact ⟨gap, rest, rfl, hgap.blanks, hs, hrest⟩

end Text

open Text (IsBlankRun IsBreak IsFieldText IsGap Token tokens)

/-! ## Forms of lines -/

/-- A text that opens with an opcode and a name, with `rest` behind them. -/
inductive Opens (opcode name : String) (rest : List Char) : List Char → Prop where
  | intro {lead gap : List Char} (hlead : IsBlankRun lead) (hgap : IsGap gap)
      (hname : IsFieldText name) (hrest : IsBreak rest) :
      Opens opcode name rest (lead ++ (opcode.toList ++ (gap ++ (name.toList ++ rest))))

/-- A condition and its two sides: three fields, each behind a gap, with blanks at the end. -/
inductive IsTest (cond left right : String) : List Char → Prop where
  | intro {gap₁ gap₂ gap₃ trail : List Char} (h₁ : IsGap gap₁) (hcond : IsFieldText cond)
      (h₂ : IsGap gap₂) (hleft : IsFieldText left) (h₃ : IsGap gap₃) (hright : IsFieldText right)
      (htrail : IsBlankRun trail) :
      IsTest cond left right
        (gap₁ ++ (cond.toList ++ (gap₂ ++ (left.toList ++ (gap₃ ++ (right.toList ++ trail))))))

/-- The line of a jump with a condition. -/
def IsCondJump (name cond left right : String) (cs : List Char) : Prop :=
  ∃ rest, Opens "jump" name rest cs ∧ IsTest cond left right rest

/-- A line that is neither a label nor a jump. -/
def IsOtherLine (cs : List Char) : Prop :=
  ∀ opcode ∈ ["label", "jump"], ∀ name rest, ¬Opens opcode name rest cs

/-- The destination that a field stands for: a line if it is all digits, and not too many of them,
else a label. -/
inductive Target.Denoted (s : String) : Target → Prop where
  | line (h : isNumeral s = true) (hlen : s.length ≤ maxDigits) :
      Denoted s (.line (Nat.ofDigitChars 10 s.toList 0))
  | label (h : isNumeral s = false) : Denoted s (.label s)

section Forms

variable {opcode name cond left right : String} {cs rest : List Char} {ts : List Token}

theorem tokens_eq_two_fields_iff (hopcode : IsFieldText opcode) :
    tokens cs = .field opcode :: .field name :: ts ↔
      ∃ rest, Opens opcode name rest cs ∧ tokens rest = ts := by
  rw [Text.tokens_eq_field_cons_iff]
  constructor
  · rintro ⟨lead, cs', rfl, hlead, -, hbreak, h⟩
    obtain ⟨gap, rest, rfl, hgap, hname, hrest, hts⟩ := hbreak.tokens_eq_field_cons_iff.mp h
    exact ⟨rest, .intro hlead hgap hname hrest, hts⟩
  · rintro ⟨rest, ⟨hlead, hgap, hname, hrest⟩, hts⟩
    refine ⟨_, _, rfl, hlead, hopcode, hgap.isBreak_append _, ?_⟩
    exact (hgap.isBreak_append _).tokens_eq_field_cons_iff.mpr
      ⟨_, rest, rfl, hgap, hname, hrest, hts⟩

theorem Opens.isBreak (h : Opens opcode name rest cs) : IsBreak rest := by
  cases h
  assumption

theorem isTest_iff (h : IsBreak rest) :
    IsTest cond left right rest ↔ tokens rest = [.field cond, .field left, .field right] := by
  rw [h.tokens_eq_field_cons_iff]
  constructor
  · rintro ⟨h₁, hcond, h₂, hleft, h₃, hright, htrail⟩
    refine ⟨_, _, rfl, h₁, hcond, h₂.isBreak_append _, ?_⟩
    refine (h₂.isBreak_append _).tokens_eq_field_cons_iff.mpr
      ⟨_, _, rfl, h₂, hleft, h₃.isBreak_append _, ?_⟩
    exact (h₃.isBreak_append _).tokens_eq_field_cons_iff.mpr
      ⟨_, _, rfl, h₃, hright, htrail.isBreak, Text.tokens_eq_nil_iff.mpr htrail⟩
  · rintro ⟨gap₁, cs₁, rfl, h₁, hcond, hbreak₁, hts₁⟩
    obtain ⟨gap₂, cs₂, rfl, h₂, hleft, hbreak₂, hts₂⟩ := hbreak₁.tokens_eq_field_cons_iff.mp hts₁
    obtain ⟨gap₃, cs₃, rfl, h₃, hright, -, hts₃⟩ := hbreak₂.tokens_eq_field_cons_iff.mp hts₂
    exact .intro h₁ hcond h₂ hleft h₃ hright (Text.tokens_eq_nil_iff.mp hts₃)

/-- A text opens in one way only. -/
theorem Opens.isCondJump_iff {name' : String} (h : Opens "jump" name rest cs) :
    IsCondJump name' cond left right cs ↔ name' = name ∧ IsTest cond left right rest := by
  have hts := (tokens_eq_two_fields_iff (by decide)).mpr ⟨rest, h, rfl⟩
  constructor
  · rintro ⟨rest', h', htest⟩
    have hts' := (tokens_eq_two_fields_iff (by decide)).mpr ⟨rest', h', rfl⟩
    rw [hts, (isTest_iff h'.isBreak).mp htest] at hts'
    simp only [List.cons.injEq, Token.field.injEq, true_and] at hts'
    exact ⟨hts'.1.symm, (isTest_iff h.isBreak).mpr hts'.2⟩
  · rintro ⟨rfl, htest⟩
    exact ⟨rest, h, htest⟩

/-- Operands that are no condition are kept as they are. -/
theorem Opens.jumpWith_eq (h : Opens "jump" name rest cs)
    (hraw : ∀ name' cond left right, ¬IsCondJump name' cond left right cs) (target : Target) :
    Instr.jumpWith target (tokens rest) = .rawJump target ((tokens rest).map Token.text) := by
  obtain ⟨cond, left, right, hts⟩ | hj := Instr.jumpWith_cases (tokens rest)
  · have htest := (isTest_iff h.isBreak).mpr hts
    exact (hraw name cond left right (h.isCondJump_iff.mpr ⟨rfl, htest⟩)).elim
  · exact hj target

end Forms

namespace Target

variable {s : String} {target : Target} {fault : Fault}

theorem ofField_eq_ok_iff : ofField s = .ok target ↔ Denoted s target := by
  constructor
  · intro h
    rw [ofField] at h
    split at h
    · rename_i hn
      split at h
      · rename_i hlen
        cases h
        exact .line hn hlen
      · cases h
    · rename_i hn
      cases h
      exact .label (by simpa using hn)
  · rintro (⟨hn, hlen⟩ | hn)
    · rw [ofField, if_pos hn, if_pos hlen]
    · rw [ofField, hn]
      rfl

theorem ofField_eq_error_iff :
    ofField s = .error fault ↔
      isNumeral s = true ∧ maxDigits < s.length ∧ fault = .longNumber s.length := by
  rw [ofField]
  constructor
  · intro h
    split at h
    · rename_i hn
      split at h
      · cases h
      · rename_i hlen
        cases h
        exact ⟨hn, Nat.lt_of_not_le hlen, rfl⟩
    · cases h
  · rintro ⟨hn, hlen, rfl⟩
    rw [if_pos hn, if_neg (Nat.not_le_of_lt hlen)]

end Target

/-! ## Reading by forms -/

namespace Instr

variable {s name : String} {rest : List Char}

theorem ofLine_of_opens_label (h : Opens "label" name rest s.toList) :
    ofLine s = .ok (.label name) := by
  have hts := (tokens_eq_two_fields_iff (by decide)).mpr ⟨rest, h, rfl⟩
  rw [ofLine, hts]
  rfl

theorem ofLine_of_opens_jump (h : Opens "jump" name rest s.toList) :
    ofLine s = (Target.ofField name).map (jumpWith · (tokens rest)) := by
  have hts := (tokens_eq_two_fields_iff (by decide)).mpr ⟨rest, h, rfl⟩
  rw [ofLine, hts]
  rfl

theorem ofLine_of_isOtherLine (h : IsOtherLine s.toList) : ofLine s = .ok (.raw s) := by
  have hne {opcode name : String} {operands : List Token} (hopcode : opcode ∈ ["label", "jump"]) :
      tokens s.toList ≠ .field opcode :: .field name :: operands := by
    intro hts
    have hfield : ∀ opcode ∈ ["label", "jump"], IsFieldText opcode := by decide
    obtain ⟨rest, hopens, -⟩ := (tokens_eq_two_fields_iff (hfield opcode hopcode)).mp hts
    exact h opcode hopcode name rest hopens
  rw [ofLine]
  split
  · rename_i opcode name operands hts
    rw [if_neg, if_neg]
    · rintro rfl
      exact hne (by simp) hts
    · rintro rfl
      exact hne (by simp) hts
  · rfl

end Instr

/-- What a line is read as, by its form. -/
inductive Reads (cs : List Char) : Except Fault Instr → Prop where
  | label {name : String} {rest : List Char} (h : Opens "label" name rest cs) :
      Reads cs (.ok (.label name))
  | jump {name cond left right : String} {target : Target}
      (h : IsCondJump name cond left right cs) (ht : target.Denoted name) :
      Reads cs (.ok (.jump target cond left right))
  | rawJump {name : String} {rest : List Char} {target : Target} (h : Opens "jump" name rest cs)
      (hraw : ∀ name' cond left right, ¬IsCondJump name' cond left right cs)
      (ht : target.Denoted name) :
      Reads cs (.ok (.rawJump target ((tokens rest).map Token.text)))
  | longNumber {name : String} {rest : List Char} (h : Opens "jump" name rest cs)
      (hn : isNumeral name = true) (hlen : maxDigits < name.length) :
      Reads cs (.error (.longNumber name.length))
  | other (h : IsOtherLine cs) : Reads cs (.ok (.raw (String.ofList cs)))

namespace Reads

variable {s : String} {result : Except Fault Instr}

/-- The form of a line decides what is read. -/
theorem ofLine_eq (h : Reads s.toList result) : Instr.ofLine s = result := by
  cases h with
  | label h => exact Instr.ofLine_of_opens_label h
  | jump h ht =>
    obtain ⟨rest, hopens, htest⟩ := h
    rw [Instr.ofLine_of_opens_jump hopens, Target.ofField_eq_ok_iff.mpr ht,
      (isTest_iff hopens.isBreak).mp htest]
    rfl
  | @rawJump name rest target h hraw ht =>
    rw [Instr.ofLine_of_opens_jump h, Target.ofField_eq_ok_iff.mpr ht]
    exact congrArg Except.ok (h.jumpWith_eq hraw target)
  | longNumber h hn hlen =>
    rw [Instr.ofLine_of_opens_jump h, Target.ofField_eq_error_iff.mpr ⟨hn, hlen, rfl⟩]
    rfl
  | other h =>
    rw [Instr.ofLine_of_isOtherLine h, String.ofList_toList]

theorem of_opens_jump {name : String} {rest : List Char} (h : Opens "jump" name rest s.toList) :
    Reads s.toList ((Target.ofField name).map (Instr.jumpWith · (tokens rest))) := by
  cases hname : Target.ofField name with
  | error fault =>
    obtain ⟨hn, hlen, rfl⟩ := Target.ofField_eq_error_iff.mp hname
    exact .longNumber h hn hlen
  | ok target =>
    have ht := Target.ofField_eq_ok_iff.mp hname
    by_cases hcond : ∃ name' cond left right, IsCondJump name' cond left right s.toList
    · obtain ⟨name', cond, left, right, hcond⟩ := hcond
      obtain ⟨rfl, htest⟩ := h.isCondJump_iff.mp hcond
      rw [(isTest_iff h.isBreak).mp htest]
      exact .jump hcond ht
    · simp only [not_exists] at hcond
      have hraw := Reads.rawJump h hcond ht
      rwa [← h.jumpWith_eq hcond target] at hraw

/-- Every line has a form. -/
theorem reads_ofLine (s : String) : Reads s.toList (Instr.ofLine s) := by
  by_cases hother : IsOtherLine s.toList
  · rw [Instr.ofLine_of_isOtherLine hother]
    simpa using Reads.other hother
  · simp only [IsOtherLine, List.forall_mem_cons, not_and_or, not_forall, not_not] at hother
    obtain ⟨name, rest, h⟩ | ⟨name, rest, h⟩ | h := hother
    · rw [Instr.ofLine_of_opens_label h]
      exact .label h
    · rw [Instr.ofLine_of_opens_jump h]
      exact of_opens_jump h
    · simp at h

end Reads

theorem reads_iff {s : String} {result : Except Fault Instr} :
    Instr.ofLine s = result ↔ Reads s.toList result := by
  constructor
  · rintro rfl
    exact Reads.reads_ofLine s
  · exact Reads.ofLine_eq

/-- A line is kept just if it has no other form. -/
theorem Instr.ofLine_eq_raw_iff {s text : String} :
    ofLine s = .ok (.raw text) ↔ text = s ∧ IsOtherLine s.toList := by
  constructor
  · intro h
    rw [reads_iff] at h
    cases h with
    | other h => exact ⟨String.ofList_toList, h⟩
  · rintro ⟨rfl, h⟩
    exact ofLine_of_isOtherLine h

/-- What is read from a line, by its characters. A label is a line that opens with its opcode and a
name. A jump opens alike; it has a condition if three fields follow and nothing else, and is kept as
written if not. Its name stands for a line or a label, and the reading fails just if it is a number
with too many digits. Every other line is kept as it is. -/
theorem line_read_by_form (s : String) :
    (∀ name, Instr.ofLine s = .ok (.label name) ↔ ∃ rest, Opens "label" name rest s.toList) ∧
    (∀ target cond left right, Instr.ofLine s = .ok (.jump target cond left right) ↔
      ∃ name, IsCondJump name cond left right s.toList ∧ target.Denoted name) ∧
    (∀ target operands, Instr.ofLine s = .ok (.rawJump target operands) ↔
      ∃ name rest, Opens "jump" name rest s.toList ∧
        (∀ name' cond left right, ¬IsCondJump name' cond left right s.toList) ∧
        target.Denoted name ∧ operands = (tokens rest).map Token.text) ∧
    (∀ fault, Instr.ofLine s = .error fault ↔
      ∃ name rest, Opens "jump" name rest s.toList ∧ isNumeral name = true ∧
        maxDigits < name.length ∧ fault = .longNumber name.length) ∧
    ∀ text, Instr.ofLine s = .ok (.raw text) ↔ text = s ∧ IsOtherLine s.toList := by
  refine ⟨?_, ?_, ?_, ?_, fun text => Instr.ofLine_eq_raw_iff⟩
  · intro name
    rw [reads_iff]
    constructor
    · intro h
      cases h with
      | label h => exact ⟨_, h⟩
    · rintro ⟨rest, h⟩
      exact .label h
  · intro target cond left right
    rw [reads_iff]
    constructor
    · intro h
      cases h with
      | jump h ht => exact ⟨_, h, ht⟩
    · rintro ⟨name, h, ht⟩
      exact .jump h ht
  · intro target operands
    rw [reads_iff]
    constructor
    · intro h
      cases h with
      | rawJump h hraw ht => exact ⟨_, _, h, hraw, ht, rfl⟩
    · rintro ⟨name, rest, h, hraw, ht, rfl⟩
      exact .rawJump h hraw ht
  · intro fault
    rw [reads_iff]
    constructor
    · intro h
      cases h with
      | longNumber h hn hlen => exact ⟨_, _, h, hn, hlen, rfl⟩
    · rintro ⟨name, rest, h, hn, hlen, rfl⟩
      exact .longNumber h hn hlen

end LogicAsm
