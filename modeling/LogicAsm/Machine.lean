/-!
# The target machine

The names that generated code shares with the machine: its registers, the blocks linked to it
and the text of an unused operand.
-/

namespace LogicAsm.Machine

/-- The accumulator, where the value of an expression ends up. -/
def acc : String := "eax"

def regB : String := "ebx"

def regC : String := "ecx"

def regD : String := "edx"

/-- The first free cell of the memory bank. -/
def stackPtr : String := "bp"

def generalRegisters : List String := [acc, regB, regC, regD]

/-- The bank on which intermediate values are saved. -/
def memoryBank : String := "bank1"

/-- The block that shows printed text. -/
def message : String := "message1"

/-- The block that shows drawings. -/
def display : String := "display1"

/-- The text of an operand that is not used. -/
def null : String := "null"

/-- The condition of a jump that is always taken. -/
def always : String := "always"

end LogicAsm.Machine
