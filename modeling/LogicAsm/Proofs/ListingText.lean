import Mathlib.Data.List.DropRight
import LogicAsm.Listing
import LogicAsm.Proofs.Traversal

/-!
# Listings, line by line

A rendered listing is read as if each of its lines were a listing of its own, whatever the lines
hold: a line may have line breaks inside, begin with one, or end in a carriage return that makes one
break with the line feed behind it. A join can only give or take a line that is empty
(`splitLines_append_lineFeed`), and empty lines are not read (`fullLines_append_lineFeed`). A line
that is tidy is read as it is, so that a listing of tidy lines has an instruction for each of them
(`listing_read_by_lines`).
-/

namespace LogicAsm

namespace Text

/-! ## Lines of joined texts -/

theorem splitLines_eq_nil_iff {cs : List Char} : splitLines cs = [] ↔ cs = [] := by
  induction cs with
  | nil => simp
  | cons c cs ih =>
    rw [splitLines]
    split
    · rename_i h
      have hne : cs ≠ [] := by
        rintro rfl
        simp at h
      simp [ih, hne]
    · split
      · simp
      · cases splitLines cs <;> simp [prependHead]

theorem splitLines_carriageReturn (cs : List Char) :
    splitLines ('\r' :: '\n' :: cs) = [] :: splitLines cs := by
  rw [splitLines, if_pos ⟨rfl, rfl⟩, splitLines_lineFeed]

/-- The lines of a text are not changed by what follows a line feed behind it. Only an empty line
may be added, between the last break of the text and that line feed. -/
theorem splitLines_append_lineFeed (cs ds : List Char) :
    ∃ gap, (gap = [] ∨ gap = [[]]) ∧
      splitLines (cs ++ '\n' :: ds) = splitLines cs ++ gap ++ splitLines ds := by
  induction cs with
  | nil => exact ⟨[[]], .inr rfl, splitLines_lineFeed ds⟩
  | cons c cs ih =>
    obtain ⟨gap, hgap, hsplit⟩ := ih
    cases cs with
    | nil =>
      -- A line that is not empty ends at the line feed, and so does a break that is half of one.
      by_cases hr : c = '\r'
      · subst hr
        exact ⟨[], .inl rfl, splitLines_carriageReturn ds⟩
      · by_cases hc : isLineBreak c = true
        · exact ⟨[[]], .inr rfl, by simp [splitLines, hc, hr]⟩
        · exact ⟨[], .inl rfl, by simp [splitLines, hc, hr, prependHead]⟩
    | cons d cs =>
      have hhead : (d :: cs ++ '\n' :: ds).head? = (d :: cs).head? := rfl
      refine ⟨gap, hgap, ?_⟩
      rw [List.cons_append, splitLines, splitLines, hhead, hsplit]
      split
      · rfl
      · split
        · rfl
        · obtain ⟨line, rest, hlines⟩ := List.exists_cons_of_ne_nil
            (mt splitLines_eq_nil_iff.mp (List.cons_ne_nil d cs))
          rw [hlines]
          rfl

/-- The lines of a text that are read: trimmed, and without the blank ones. -/
def fullLines (cs : List Char) : List (List Char) :=
  ((splitLines cs).map trim).filter (· ≠ [])

theorem fullLines_append_lineFeed (cs ds : List Char) :
    fullLines (cs ++ '\n' :: ds) = fullLines cs ++ fullLines ds := by
  obtain ⟨gap, hgap, hsplit⟩ := splitLines_append_lineFeed cs ds
  have hnone : (gap.map trim).filter (· ≠ []) = [] := by
    rcases hgap with rfl | rfl <;> rfl
  rw [fullLines, hsplit, List.map_append, List.map_append, List.filter_append, List.filter_append,
    hnone, List.append_nil, fullLines, fullLines]

theorem fullLines_unlines (lines : List String) :
    fullLines (unlines lines).toList = lines.flatMap fun line => fullLines line.toList := by
  induction lines with
  | nil => rfl
  | cons line lines ih =>
    rw [unlines, String.toList_append, String.toList_append, List.append_assoc, List.flatMap_cons,
      ← ih]
    exact fullLines_append_lineFeed line.toList (unlines lines).toList

/-! ## Tidy lines -/

/-- A line that is read as it is: it holds no line break, it is not blank, and no blank stands at
its ends. -/
structure IsTidy (line : String) : Prop where
  noBreak : ∀ c ∈ line.toList, isLineBreak c = false
  notBlank : ∃ c ∈ line.toList, isBlank c = false
  start : ∀ c ∈ line.toList.head?, isBlank c = false
  stop : ∀ c ∈ line.toList.getLast?, isBlank c = false

theorem isTidy_iff {line : String} :
    IsTidy line ↔ line.toList.all (!isLineBreak ·) ∧ line.toList.any (!isBlank ·) ∧
      line.toList.head?.all (!isBlank ·) ∧ line.toList.getLast?.all (!isBlank ·) := by
  simp only [List.all_eq_true, List.any_eq_true, Option.all_eq_true, Bool.not_eq_true']
  exact ⟨fun h => ⟨h.noBreak, h.notBlank, h.start, h.stop⟩, fun h => ⟨h.1, h.2.1, h.2.2.1, h.2.2.2⟩⟩

instance (line : String) : Decidable (IsTidy line) := decidable_of_iff _ isTidy_iff.symm

theorem trimStart_eq_self {cs : List Char} (h : ∀ c ∈ cs.head?, isBlank c = false) :
    trimStart cs = cs := by
  rw [trimStart, List.dropWhile_eq_self_iff]
  intro hcs
  simpa using h cs[0] (by simp [List.head?_eq_getElem?, hcs])

theorem trimEnd_eq_self {cs : List Char} (h : ∀ c ∈ cs.getLast?, isBlank c = false) :
    trimEnd cs = cs := by
  refine List.rdropWhile_eq_self_iff.mpr ?_
  intro hcs
  simpa using h (cs.getLast hcs) (List.getLast?_eq_some_getLast hcs)

theorem splitLines_eq_singleton {cs : List Char} (hne : cs ≠ [])
    (h : ∀ c ∈ cs, isLineBreak c = false) : splitLines cs = [cs] := by
  induction cs with
  | nil => exact (hne rfl).elim
  | cons c cs ih =>
    rw [List.forall_mem_cons] at h
    rw [splitLines_cons h.1]
    cases cs with
    | nil => rfl
    | cons d cs => rw [ih (List.cons_ne_nil d cs) h.2, prependHead]

theorem IsTidy.fullLines_eq {line : String} (h : IsTidy line) :
    fullLines line.toList = [line.toList] := by
  obtain ⟨c, hc, -⟩ := h.notBlank
  have hne : line.toList ≠ [] := List.ne_nil_of_mem hc
  have htrim : trim line.toList = line.toList := by
    rw [trim, trimStart_eq_self h.start, trimEnd_eq_self h.stop]
  rw [fullLines, splitLines_eq_singleton hne h.noBreak, List.map_singleton, htrim,
    List.filter_singleton]
  simp [hne]

end Text

/-! ## Read listings -/

theorem readListing_eq (text : String) :
    readListing text =
      (Text.fullLines text.toList).mapM fun line => Instr.ofLine (String.ofList line) := rfl

theorem readListing_unlines (lines : List String) :
    readListing (renderListing lines) = (lines.mapM readListing).map List.flatten := by
  rw [readListing_eq, renderListing, Text.fullLines_unlines, mapM_flatMap]
  rfl

theorem readListing_of_isTidy {line : String} (h : Text.IsTidy line) :
    readListing line = (Instr.ofLine line).map ([·]) := by
  rw [readListing_eq, h.fullLines_eq, List.mapM_cons, String.ofList_toList]
  cases Instr.ofLine line <;> rfl

/-- A rendered listing is read as its lines are, each as a listing of its own; the first line that
cannot be read is at fault. A tidy line is read as one instruction, so a listing of tidy lines is
read as the instructions of its lines, in their places. -/
theorem listing_read_by_lines :
    (∀ lines, readListing (renderListing lines) = (lines.mapM readListing).map List.flatten) ∧
    (∀ line, Text.IsTidy line → readListing line = (Instr.ofLine line).map ([·])) ∧
    ∀ lines, (∀ line ∈ lines, Text.IsTidy line) →
      readListing (renderListing lines) = lines.mapM Instr.ofLine := by
  refine ⟨readListing_unlines, fun line => readListing_of_isTidy, fun lines h => ?_⟩
  have hlines : lines.mapM readListing = lines.mapM fun line => (Instr.ofLine line).map ([·]) :=
    mapM_congr (List.forall₂_same.mpr fun line hline => readListing_of_isTidy (h line hline))
  rw [readListing_unlines, hlines, mapM_map_ok]
  cases lines.mapM Instr.ofLine with
  | error fault => rfl
  | ok code => exact congrArg Except.ok (by rw [← List.flatMap_def, List.flatMap_singleton'])

/-- Lines that end in a carriage return, begin with a line feed, hold a break, or are blank. -/
def raggedLines : List String :=
  ["print a\r", "", "\nlabel end\u2028 jump end", " \t ", "print b\r\n"]

/-- The same instructions, one on each line. -/
def plainLines : List String :=
  ["print a", "label end", "jump end", "print b"]

theorem listing_read_by_lines_raggedLines :
    readListing (renderListing raggedLines) = (raggedLines.mapM readListing).map List.flatten ∧
    raggedLines.mapM readListing = .ok
      [[.raw "print a"], [], [.label "end", .rawJump (.label "end") []], [], [.raw "print b"]] ∧
    (∀ line ∈ plainLines, Text.IsTidy line) ∧
    readListing (renderListing raggedLines) = readListing (renderListing plainLines) := by
  have hragged : raggedLines.mapM readListing = .ok
      [[.raw "print a"], [], [.label "end", .rawJump (.label "end") []], [], [.raw "print b"]] := by
    decide +kernel
  have htidy : ∀ line ∈ plainLines, Text.IsTidy line := by decide +kernel
  obtain ⟨hby, -, hplain⟩ := listing_read_by_lines
  refine ⟨hby raggedLines, hragged, htidy, ?_⟩
  rw [hby, hragged, hplain plainLines htidy]
  decide +kernel

end LogicAsm
