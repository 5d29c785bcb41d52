import Mathlib.Data.List.DropRight
import LogicAsm.Listing
import LogicAsm.Proofs.TextLinking

/-!
# Trimmed lines

A listing is read from a text by lines that are trimmed, and it can also be linked from lines as
they are. Blanks at the ends of a line are seen by one token at most, a string that is not closed
(`tokens_trim`), so that the instruction that is read from the trimmed line is the one of the line,
trimmed itself (`Instr.ofLine_trimLine`). Linking does not look at what is trimmed, and what is
printed in the end differs in the blanks at its ends only (`linked_listing_eq_linked_lines`).
-/

namespace LogicAsm

namespace Text

/-! ## Trailing blanks -/

theorem trimEnd_eq_rdropWhile (cs : List Char) : trimEnd cs = cs.rdropWhile isBlank := rfl

/-- A trimmed text is empty just if the text was blank throughout. -/
theorem trim_eq_nil_iff {cs : List Char} : trim cs = [] ↔ ∀ c ∈ cs, isBlank c = true := by
  have htake : ∀ c ∈ cs.takeWhile isBlank, isBlank c = true := fun _ => List.mem_takeWhile_imp
  rw [trim, trimEnd_eq_rdropWhile, List.rdropWhile_eq_nil_iff]
  conv_rhs => rw [← List.takeWhile_append_dropWhile (p := isBlank) (l := cs)]
  rw [List.forall_mem_append]
  exact ⟨fun h => ⟨htake, h⟩, And.right⟩

/-- What follows a character that is no blank is trimmed by itself. -/
theorem trimEnd_append_cons {c : Char} (hc : isBlank c = false) (pre rest : List Char) :
    trimEnd (pre ++ c :: rest) = pre ++ c :: trimEnd rest := by
  simp only [trimEnd, List.reverse_append, List.reverse_cons, List.append_assoc,
    List.dropWhile_append, List.isEmpty_iff]
  split
  · rename_i h
    simp [h, hc]
  · simp

theorem trimEnd_cons {c : Char} (hc : isBlank c = false) (cs : List Char) :
    trimEnd (c :: cs) = c :: trimEnd cs :=
  trimEnd_append_cons hc [] cs

/-- A text that is not blank throughout keeps what stands before it. -/
theorem trimEnd_append {cs : List Char} (h : ∃ c ∈ cs, isBlank c = false) (pre : List Char) :
    trimEnd (pre ++ cs) = pre ++ trimEnd cs := by
  obtain ⟨c, hc, hb⟩ := h
  obtain ⟨as, bs, rfl⟩ := List.append_of_mem hc
  rw [← List.append_assoc, trimEnd_append_cons hb, trimEnd_append_cons hb, List.append_assoc]

theorem isBlank_of_isFieldChar {c : Char} (h : isFieldChar c = true) : isBlank c = false := by
  simp only [isFieldChar, Bool.and_eq_true, Bool.not_eq_true'] at h
  exact h.1

/-- A field keeps its place before what is trimmed. -/
theorem IsFieldText.trimEnd_append {s : String} (hs : IsFieldText s) (cs : List Char) :
    trimEnd (s.toList ++ cs) = s.toList ++ trimEnd cs := by
  have hfield := hs.2
  generalize s.toList = run at hfield ⊢
  induction run with
  | nil => rfl
  | cons c run ih =>
    rw [List.forall_mem_cons] at hfield
    rw [List.cons_append, trimEnd_cons (isBlank_of_isFieldChar hfield.1), ih hfield.2,
      List.cons_append]

/-- A line without its trailing blanks. -/
def trimLineEnd (s : String) : String := String.ofList (trimEnd s.toList)

/-- A line without the blanks at its two ends. -/
def trimLine (s : String) : String := String.ofList (trim s.toList)

/-! ## Tokens of a trimmed text -/

/-- A token at the end of a line that is trimmed. A field has no blanks to lose. -/
def Token.trimEnd : Token → Token
  | field s => field s
  | quoted s => quoted (trimLineEnd s)

theorem Token.trimEnd_eq_field {t : Token} {s : String} :
    t.trimEnd = .field s ↔ t = .field s := by
  cases t <;> simp [Token.trimEnd]

theorem Token.Closed.trimEnd_eq {t : Token} (h : t.Closed) : t.trimEnd = t := by
  cases h with
  | field => rfl
  | quoted inner h =>
    rw [Token.trimEnd, trimLineEnd, String.toList_ofList, trimEnd_append_cons isBlank_quote,
      trimEnd_nil]

theorem tokens_trimStart (cs : List Char) : tokens (trimStart cs) = tokens cs := by
  induction cs with
  | nil => rfl
  | cons c cs ih =>
    by_cases hc : isBlank c = true
    · rw [tokens_blank hc, ← ih, trimStart, List.dropWhile_cons_of_pos hc, trimStart]
    · rw [trimStart, List.dropWhile_cons_of_neg hc]

/-- Blanks at the end of a text are lost by its last token, if that is a string without a second
quote. -/
theorem tokens_trimEnd (cs : List Char) :
    tokens (trimEnd cs) = (tokens cs).map Token.trimEnd := by
  induction cs using tokens_induction with
  | nil => simp
  | blank c cs hc ih =>
    rw [tokens_blank hc, ← ih]
    by_cases h : ∃ d ∈ cs, isBlank d = false
    · rw [← List.singleton_append, trimEnd_append h, List.singleton_append, tokens_blank hc]
    · have hall : ∀ d ∈ cs, isBlank d = true := by simpa using h
      rw [trimEnd_eq_rdropWhile, trimEnd_eq_rdropWhile, List.rdropWhile_eq_nil_iff.mpr hall,
        List.rdropWhile_eq_nil_iff.mpr (List.forall_mem_cons.mpr ⟨hc, hall⟩)]
  | field s cs hs hcs ih =>
    have hstop : ∀ c ∈ (trimEnd cs).head?, isFieldChar c = false := by
      intro c hc
      obtain ⟨rest, hrest⟩ : trimEnd cs <+: cs := List.rdropWhile_prefix isBlank cs
      refine hcs c ?_
      rw [← hrest, List.head?_append, Option.mem_def.mp hc]
      rfl
    rw [hs.trimEnd_append, tokens_field_append hs hstop, tokens_field_append hs hcs, ih]
    rfl
  | closed inner cs h ih =>
    rw [← List.cons_append, trimEnd_append_cons isBlank_quote, List.cons_append,
      List.cons_append, tokens_closed_append h, tokens_closed_append h, List.map_cons, ih,
      (Token.Closed.quoted inner h).trimEnd_eq]
  | unclosed inner h =>
    have htrim : ∀ c ∈ trimEnd inner, isInnerChar c = true :=
      fun c hc => h c ((List.rdropWhile_prefix isBlank inner).subset hc)
    rw [trimEnd_cons isBlank_quote, tokens_unclosed h, tokens_unclosed htrim, List.map_singleton,
      Token.trimEnd, trimLineEnd, String.toList_ofList, trimEnd_cons isBlank_quote]

theorem tokens_trim (cs : List Char) : tokens (trim cs) = (tokens cs).map Token.trimEnd := by
  rw [trim, tokens_trimEnd, tokens_trimStart]

/-! ## Trimmed tokens on a line -/

/-- A token that stands on a line begins with a character that is no blank. -/
theorem WellFormed.exists_not_blank {t : Token} {ts : List Token} (h : WellFormed (t :: ts)) :
    ∃ c cs, t.text.toList = c :: cs ∧ isBlank c = false := by
  obtain _ | ⟨⟨inner, _⟩⟩ | ⟨@⟨s, hs⟩ | ⟨inner, _⟩, _⟩ := h
  · exact ⟨'"', _, String.toList_ofList, isBlank_quote⟩
  · obtain ⟨c, cs, hc⟩ := List.exists_cons_of_ne_nil (l := s.toList) (by simpa using hs.1)
    exact ⟨c, cs, hc, isBlank_of_isFieldChar (hs.2 c (by simp [hc]))⟩
  · exact ⟨'"', _, String.toList_ofList, isBlank_quote⟩

theorem WellFormed.intercalate_eq_cons {t : Token} {ts : List Token} (h : WellFormed (t :: ts)) :
    ∃ c cs, (" ".intercalate ((t :: ts).map Token.text)).toList = c :: cs ∧
      isBlank c = false := by
  obtain ⟨c, cs, hc, hb⟩ := h.exists_not_blank
  cases ts with
  | nil => exact ⟨c, cs, by simpa using hc, hb⟩
  | cons t' ts =>
    rw [List.map_cons, String.intercalate_cons_of_ne_nil (by simp), String.toList_append,
      String.toList_append, hc, List.cons_append, List.cons_append]
    exact ⟨c, _, rfl, hb⟩

/-- The texts of tokens on a line are trimmed one by one. -/
theorem WellFormed.map_text_trimEnd {ts : List Token} (h : WellFormed ts) :
    (ts.map Token.trimEnd).map Token.text = (ts.map Token.text).map trimLineEnd := by
  induction h with
  | nil => rfl
  | last h =>
    obtain ⟨inner, h⟩ := h
    rfl
  | @cons t ts h _ ih =>
    simp only [List.map_cons, ih]
    cases h with
    | field hs =>
      have htrim := hs.trimEnd_append []
      rw [List.append_nil, trimEnd_nil, List.append_nil] at htrim
      simp [Token.trimEnd, Token.text, trimLineEnd, htrim]
    | quoted inner h => rfl

theorem trimEnd_intercalate {ts : List Token} (h : WellFormed ts) :
    trimEnd (" ".intercalate (ts.map Token.text)).toList =
      (" ".intercalate ((ts.map Token.trimEnd).map Token.text)).toList := by
  induction h with
  | nil => simp
  | last h =>
    obtain ⟨inner, h⟩ := h
    simp [Token.trimEnd, Token.text, trimLineEnd]
  | @cons t ts h hts ih =>
    cases ts with
    | nil =>
      have htrim := (WellFormed.cons h .nil).map_text_trimEnd
      simp only [List.map_cons, List.map_nil, trimLineEnd] at htrim
      simp [htrim]
    | cons t' ts =>
      obtain ⟨c, cs, hc, hb⟩ := hts.intercalate_eq_cons
      have hfull : ∃ c ∈ (" ".intercalate ((t' :: ts).map Token.text)).toList,
          isBlank c = false := ⟨c, by rw [hc]; exact List.mem_cons_self, hb⟩
      rw [List.map_cons, String.intercalate_cons_of_ne_nil (by simp), String.toList_append,
        trimEnd_append hfull, ih, List.map_cons (f := Token.trimEnd) (a := t), h.trimEnd_eq,
        List.map_cons (a := t), String.intercalate_cons_of_ne_nil (by simp),
        String.toList_append (s := t.text ++ " ")]

/-- A line of tokens is trimmed token by token. -/
theorem trimLine_intercalate {ts : List Token} (h : WellFormed ts) :
    trimLine (" ".intercalate (ts.map Token.text)) =
      " ".intercalate ((ts.map Token.trimEnd).map Token.text) := by
  have hstart : trimStart (" ".intercalate (ts.map Token.text)).toList =
      (" ".intercalate (ts.map Token.text)).toList := by
    cases ts with
    | nil => rfl
    | cons t ts =>
      obtain ⟨c, cs, hc, hb⟩ := h.intercalate_eq_cons
      rw [hc, trimStart, List.dropWhile_cons_of_neg (by simp [hb])]
  rw [trimLine, trim, hstart, trimEnd_intercalate h, String.ofList_toList]

/-! ## Lines of a rendered text -/

theorem splitLines_append {line : List Char} (h : ∀ c ∈ line, isLineBreak c = false)
    (cs : List Char) : splitLines (line ++ '\n' :: cs) = line :: splitLines cs := by
  induction line with
  | nil => exact splitLines_lineFeed cs
  | cons c line ih =>
    rw [List.forall_mem_cons] at h
    rw [List.cons_append, splitLines_cons h.1, ih h.2, prependHead]

/-- Lines that are joined to a text are the lines of that text. -/
theorem splitLines_unlines {lines : List String}
    (h : ∀ line ∈ lines, ∀ c ∈ line.toList, isLineBreak c = false) :
    splitLines (unlines lines).toList = lines.map String.toList := by
  induction lines with
  | nil => rfl
  | cons line lines ih =>
    rw [List.forall_mem_cons] at h
    rw [unlines, String.toList_append, String.toList_append, List.append_assoc, List.map_cons,
      ← ih h.2]
    exact splitLines_append h.1 _

end Text

open Text (IsFieldText Token WellFormed trimLine trimLineEnd)

/-- Of lines without breaks, none of them blank, a listing reads every one, trimmed. -/
theorem readListing_renderListing {lines : List String}
    (hblank : ∀ line ∈ lines, ∃ c ∈ line.toList, Text.isBlank c = false)
    (hbreak : ∀ line ∈ lines, ∀ c ∈ line.toList, Text.isLineBreak c = false) :
    readListing (renderListing lines) = lines.mapM fun line => Instr.ofLine (trimLine line) := by
  have hfilter : ((lines.map String.toList).map Text.trim).filter (· ≠ []) =
      (lines.map String.toList).map Text.trim := by
    rw [List.filter_eq_self, List.map_map, List.forall_mem_map]
    intro line hline
    obtain ⟨c, hc, hb⟩ := hblank line hline
    rw [decide_eq_true_eq, Function.comp_apply, ne_eq, Text.trim_eq_nil_iff]
    intro hall
    rw [hall c hc] at hb
    cases hb
  rw [readListing, renderListing, Text.splitLines_unlines hbreak, hfilter, List.mapM_map,
    List.mapM_map]
  rfl

/-! ## Trimmed instructions -/

namespace Instr

/-- What is read from a line that is trimmed, instead of the line. -/
def trimmed : Instr → Instr
  | raw text => .raw (trimLine text)
  | rawJump target operands => .rawJump target (operands.map trimLineEnd)
  | i => i

theorem label?_trimmed (i : Instr) : i.trimmed.label? = i.label? := by
  cases i <;> rfl

theorem link_trimmed (table : LabelTable) (i : Instr) :
    i.trimmed.link table = (i.link table).map trimmed := by
  cases i with
  | jump target | rawJump target =>
    simp only [trimmed, link]
    cases target.link table <;> rfl
  | _ => rfl

theorem jumpWith_map_trimEnd (target : Target) {operands : List Token} (h : WellFormed operands) :
    jumpWith target (operands.map Token.trimEnd) = (jumpWith target operands).trimmed := by
  obtain ⟨cond, left, right, rfl⟩ | hj := jumpWith_cases operands
  · rfl
  · rw [hj, trimmed, ← h.map_text_trimEnd]
    obtain ⟨cond, left, right, htrim⟩ | hj' := jumpWith_cases (operands.map Token.trimEnd)
    · obtain rfl : operands = [cond, left, right].map .field := by
        simpa [List.map_eq_cons_iff, Text.Token.trimEnd_eq_field] using htrim
      cases hj target
    · exact hj' target

/-- The instruction of a trimmed line is the one of the line, trimmed. -/
theorem ofLine_trimLine (s : String) : ofLine (trimLine s) = (ofLine s).map trimmed := by
  have hform := Text.wellFormed_tokens s.toList
  unfold ofLine
  rw [trimLine, String.toList_ofList, Text.tokens_trim]
  generalize Text.tokens s.toList = ts at hform ⊢
  rcases ts with _ | ⟨opcode | _, _ | ⟨name | _, operands⟩⟩
  case cons.field.cons.field =>
    rw [Text.wellFormed_cons_field, Text.wellFormed_cons_field] at hform
    simp only [List.map_cons, Token.trimEnd]
    split
    · rfl
    · split
      · cases Target.ofField name with
        | error fault => rfl
        | ok target => exact congrArg Except.ok (jumpWith_map_trimEnd target hform.2.2)
      · rfl
  all_goals rfl

/-! ## Trimmed lines of linked code -/

theorem toLine_jumpWith (target : Target) (operands : List Token) :
    (jumpWith target operands).toLine =
      .ok (" ".intercalate ("jump" :: target.text :: operands.map Token.text)) := by
  obtain ⟨cond, left, right, rfl⟩ | hj := jumpWith_cases operands
  · rfl
  · rw [hj]
    rfl

/-- A jump is printed from its trimmed tokens as its line is trimmed. -/
theorem toLine_jumpWith_trimmed {target : Target} (ht : IsFieldText target.text)
    {operands : List Token} (h : WellFormed operands) :
    (jumpWith target operands).trimmed.toLine =
      (jumpWith target operands).toLine.map trimLine := by
  have hline : WellFormed (.field "jump" :: .field target.text :: operands) :=
    .cons (.field (by decide)) (.cons (.field ht) h)
  rw [← jumpWith_map_trimEnd target h, toLine_jumpWith, toLine_jumpWith]
  exact congrArg Except.ok (Text.trimLine_intercalate hline).symm

/-- The destination of a linked jump is printed as a field. -/
theorem isFieldText_of_link {table : LabelTable} {target target' : Target}
    (ht : target.Legible) (h : target.link table = .ok target') : IsFieldText target'.text := by
  cases ht with
  | line n hn =>
    cases h
    exact (Target.Legible.line n hn).isFieldText
  | label =>
    rw [Target.link] at h
    split at h
    · cases h
      exact isFieldText_of_isNumeral (isNumeral_toString _)
    · cases h

/-- What is linked is trimmed before or after it is printed. -/
theorem toLine_trimmed_of_link {s : String} {i j : Instr} {table : LabelTable}
    (hi : ofLine s = .ok i) (hj : i.link table = .ok j) :
    j.trimmed.toLine = j.toLine.map trimLine := by
  obtain rfl | ⟨name, hname, rfl⟩ | ⟨target, operands, ht, hs, rfl⟩ := ofLine_cases hi
  · cases hj
    simp only [trimmed, toLine_raw]
    rfl
  · cases hj
    have hline : WellFormed [.field "label", .field name] :=
      .cons (.field (by decide)) (.cons (.field hname) .nil)
    exact congrArg Except.ok (Text.trimLine_intercalate hline).symm
  · obtain ⟨target', htarget, rfl⟩ := exists_of_link_jumpWith hj
    exact toLine_jumpWith_trimmed (isFieldText_of_link ht htarget) hs

end Instr

theorem toLines_trimmed_of_link {lines : List String} {code linked : List Instr}
    (hcode : lines.mapM Instr.ofLine = .ok code) (hlinked : link code = .ok linked) :
    Instr.toLines (linked.map Instr.trimmed) = (Instr.toLines linked).map (List.map trimLine) := by
  rw [Instr.toLines, Instr.toLines, List.mapM_map, ← mapM_map_ok]
  refine mapM_congr (List.forall₂_same.mpr ?_)
  intro j hj
  obtain ⟨i, hi, hij⟩ := exists_of_mem_link hlinked hj
  obtain ⟨s, -, hs⟩ := exists_of_forall₂ (mapM_eq_ok_iff.mp hcode) hi
  exact Instr.toLine_trimmed_of_link hs hij

/-- Lines that are not blank and hold no line break can be linked as they are, or as the text of a
listing. The outcomes are the same, but for blanks at the ends of the printed lines. -/
theorem linked_listing_eq_linked_lines (lines : List String)
    (hblank : ∀ line ∈ lines, ∃ c ∈ line.toList, Text.isBlank c = false)
    (hbreak : ∀ line ∈ lines, ∀ c ∈ line.toList, Text.isLineBreak c = false) :
    readListing (renderListing lines) >>= link >>= Instr.toLines =
      (linkLines lines).map (List.map trimLine) := by
  have hread : readListing (renderListing lines) =
      (lines.mapM Instr.ofLine).map (List.map Instr.trimmed) := by
    rw [readListing_renderListing hblank hbreak, ← mapM_map_ok]
    exact congrArg lines.mapM (funext Instr.ofLine_trimLine)
  rw [hread, linkLines]
  cases hcode : lines.mapM Instr.ofLine with
  | error fault => rfl
  | ok code =>
    calc link (code.map Instr.trimmed) >>= Instr.toLines
        = (link code).map (List.map Instr.trimmed) >>= Instr.toLines := by
          rw [link_map Instr.label?_trimmed Instr.link_trimmed]
      _ = (link code >>= Instr.toLines).map (List.map trimLine) := ?_
    cases hlinked : link code with
    | error fault => rfl
    | ok linked => exact toLines_trimmed_of_link hcode hlinked

/-- Lines with strings that are not closed, some of them over blanks at the end, and a label behind
a blank that is no space. -/
def looseLines : List String :=
  ["  jump end \"a  ", "\tprint \" x ", "\u00A0label end \"", " jump 1 \" "]

theorem linked_listing_eq_linked_lines_looseLines :
    (∀ line ∈ looseLines, ∃ c ∈ line.toList, Text.isBlank c = false) ∧
    (∀ line ∈ looseLines, ∀ c ∈ line.toList, Text.isLineBreak c = false) ∧
    linkLines looseLines = .ok ["jump 2 \"a  ", "\tprint \" x ", "jump 1 \" "] ∧
    readListing (renderListing looseLines) >>= link >>= Instr.toLines =
      .ok ["jump 2 \"a", "print \" x", "jump 1 \""] := by
  have hblank : ∀ line ∈ looseLines, ∃ c ∈ line.toList, Text.isBlank c = false := by
    have hany : looseLines.all (·.toList.any (!Text.isBlank ·)) = true := by decide +kernel
    simpa using hany
  have hbreak : ∀ line ∈ looseLines, ∀ c ∈ line.toList, Text.isLineBreak c = false := by
    have hall : looseLines.all (·.toList.all (!Text.isLineBreak ·)) = true := by decide +kernel
    simpa using hall
  have hlines : linkLines looseLines = .ok ["jump 2 \"a  ", "\tprint \" x ", "jump 1 \" "] := by
    decide +kernel
  refine ⟨hblank, hbreak, hlines, ?_⟩
  rw [linked_listing_eq_linked_lines looseLines hblank hbreak, hlines]
  decide +kernel

end LogicAsm
