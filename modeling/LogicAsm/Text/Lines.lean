import LogicAsm.Text.CharSet

/-!
# Lines of a text

A text is cut at its line breaks, and lines are joined to a text with a line feed after each.
-/

namespace LogicAsm.Text

/-- The characters that end a line: line feed to carriage return, three of the information
separators, the next-line control and the line and paragraph separators of Unicode. -/
def lineBreaks : CharSet where
  ranges := [(0x000A, 0x000D), (0x001C, 0x001E), (0x0085, 0x0085), (0x2028, 0x2029)]

/-- A character that ends a line. -/
def isLineBreak (c : Char) : Bool := lineBreaks.has c

@[simp] theorem isLineBreak_lineFeed : isLineBreak '\n' = true := by decide

/-- Put a character in front of the first line, which is opened if there is none. -/
def prependHead (c : Char) : List (List Char) → List (List Char)
  | [] => [[c]]
  | line :: lines => (c :: line) :: lines

/-- The lines of a text, without their breaks. A carriage return directly before a line feed
belongs to the same break, and nothing follows the last break of a text that ends with one. -/
def splitLines : List Char → List (List Char)
  | [] => []
  | c :: cs =>
    if c = '\r' ∧ cs.head? = some '\n' then splitLines cs
    else if isLineBreak c then [] :: splitLines cs
    else prependHead c (splitLines cs)

/-- Lines joined to a text, with a line feed after each. -/
def unlines : List String → String
  | [] => ""
  | line :: lines => line ++ "\n" ++ unlines lines

@[simp] theorem splitLines_nil : splitLines [] = [] := rfl

theorem splitLines_lineFeed (cs : List Char) : splitLines ('\n' :: cs) = [] :: splitLines cs := by
  simp [splitLines]

theorem splitLines_cons {c : Char} {cs : List Char} (hc : isLineBreak c = false) :
    splitLines (c :: cs) = prependHead c (splitLines cs) := by
  have hr : c ≠ '\r' := by
    rintro rfl
    exact absurd hc (by decide)
  simp [splitLines, hc, hr]

end LogicAsm.Text
