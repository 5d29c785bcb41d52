import LogicAsm.Text.Blank

/-!
# Tokens of a line

A line is a sequence of fields and quoted strings. Blanks separate tokens but are only needed
between two fields: a double quote ends a field and starts a string, which runs to the next
double quote, or to the end of the text if there is none.
-/

namespace LogicAsm.Text

/-- A piece of a line, with the characters it stands for. A quoted string keeps its quotes. -/
inductive Token where
  | field (text : String)
  | quoted (text : String)
  deriving DecidableEq, Repr

namespace Token

/-- The characters of a token, as they stand in the line. -/
def text : Token → String
  | field s | quoted s => s

/-- The content of a field; a quoted string has none. -/
def field? : Token → Option String
  | field s => some s
  | quoted _ => none

end Token

/-- A character that may stand in a field. -/
def isFieldChar (c : Char) : Bool := !isBlank c && c != '"'

/-- A character that may stand inside a quoted string. -/
def isInnerChar (c : Char) : Bool := c != '"'

/-- The tokens of a text. -/
def tokens : List Char → List Token
  | [] => []
  | c :: cs =>
    if isBlank c then tokens cs
    else if c = '"' then
      let rest := cs.dropWhile isInnerChar
      .quoted (String.ofList (c :: cs.takeWhile isInnerChar ++ rest.take 1)) ::
        tokens (rest.drop 1)
    else
      .field (String.ofList (c :: cs.takeWhile isFieldChar)) ::
        tokens (cs.dropWhile isFieldChar)
termination_by cs => cs.length
decreasing_by
  · simp
  · have := (List.dropWhile_sublist isInnerChar (l := cs)).length_le
    simp only [List.length_drop, List.length_cons]
    omega
  · have := (List.dropWhile_sublist isFieldChar (l := cs)).length_le
    simp only [List.length_cons]
    omega

@[simp] theorem tokens_nil : tokens [] = [] := by simp [tokens]

theorem tokens_blank {c : Char} (hc : isBlank c = true) (cs : List Char) :
    tokens (c :: cs) = tokens cs := by
  rw [tokens, if_pos hc]

theorem tokens_quote (cs : List Char) :
    tokens ('"' :: cs) =
      .quoted (String.ofList ('"' :: cs.takeWhile isInnerChar ++
        (cs.dropWhile isInnerChar).take 1)) :: tokens ((cs.dropWhile isInnerChar).drop 1) := by
  rw [tokens]
  simp

theorem tokens_field {c : Char} (hc : isFieldChar c = true) (cs : List Char) :
    tokens (c :: cs) =
      .field (String.ofList (c :: cs.takeWhile isFieldChar)) ::
        tokens (cs.dropWhile isFieldChar) := by
  simp only [isFieldChar, Bool.and_eq_true, Bool.not_eq_true', bne_iff_ne] at hc
  rw [tokens, if_neg (by simp [hc.1]), if_neg hc.2]

end LogicAsm.Text
