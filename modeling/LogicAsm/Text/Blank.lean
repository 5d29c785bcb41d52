import LogicAsm.Text.CharSet

/-!
# Blanks

The characters that separate the words of a line, and the removal of blanks at the ends of a
text.
-/

namespace LogicAsm.Text

/-- The blank characters: tab to carriage return, the information separators, the space, the
next-line control and the space, line and paragraph separators of Unicode. -/
def blanks : CharSet where
  ranges := [
    (0x0009, 0x000D), (0x001C, 0x0020), (0x0085, 0x0085), (0x00A0, 0x00A0), (0x1680, 0x1680),
    (0x2000, 0x200A), (0x2028, 0x2029), (0x202F, 0x202F), (0x205F, 0x205F), (0x3000, 0x3000)]

/-- A character that separates words. -/
def isBlank (c : Char) : Bool := blanks.has c

@[simp] theorem isBlank_space : isBlank ' ' = true := by decide

@[simp] theorem isBlank_quote : isBlank '"' = false := by decide

/-- A text without its leading blanks. -/
def trimStart (cs : List Char) : List Char := cs.dropWhile isBlank

/-- A text without its trailing blanks. -/
def trimEnd (cs : List Char) : List Char := (cs.reverse.dropWhile isBlank).reverse

/-- A text without the blanks at its two ends. -/
def trim (cs : List Char) : List Char := trimEnd (trimStart cs)

@[simp] theorem trimStart_nil : trimStart [] = [] := rfl

@[simp] theorem trimEnd_nil : trimEnd [] = [] := rfl

end LogicAsm.Text
