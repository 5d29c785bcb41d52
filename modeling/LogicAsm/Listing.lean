import LogicAsm.Instr.Reader
import LogicAsm.Linking
import LogicAsm.Text.Lines

/-!
# Listings

A listing is a text with an instruction on each line.
-/

namespace LogicAsm

/-- The instructions of a listing. Lines are trimmed, and blank ones are skipped. -/
def readListing (text : String) : Except Fault (List Instr) :=
  (((Text.splitLines text.toList).map Text.trim).filter (· ≠ [])).mapM
    fun line => Instr.ofLine (String.ofList line)

/-- The text of a listing. -/
def renderListing (lines : List String) : String := Text.unlines lines

/-- Link a listing that is given by its lines. Every line counts, a blank one too. -/
def linkLines (lines : List String) : Except Fault (List String) := do
  let code ← lines.mapM Instr.ofLine
  Instr.toLines (← link code)

end LogicAsm
