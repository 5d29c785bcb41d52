import Std.Data.TreeMap
import LogicAsm.Fault
import LogicAsm.Instr.Basic

/-!
# Linking

Linked code has no label definitions, and its jumps go to line numbers. A label stands for the
number of the instruction that follows it, in the code without labels; of several definitions
of one label the last one counts.
-/

namespace LogicAsm

/-- The code without its label definitions. -/
def strip (code : List Instr) : List Instr := code.filter (!·.isLabel)

@[simp] theorem strip_nil : strip [] = [] := rfl

@[simp] theorem strip_append (code code' : List Instr) :
    strip (code ++ code') = strip code ++ strip code' := List.filter_append ..

theorem mem_strip {i : Instr} {code : List Instr} :
    i ∈ strip code ↔ i ∈ code ∧ i.isLabel = false := by
  simp [strip]

/-- The line of each label. -/
abbrev LabelTable := Std.TreeMap String Nat

/-- Enter the labels of a code into a table, if `line` instructions come before the code. -/
def LabelTable.enter (table : LabelTable) (line : Nat) : List Instr → LabelTable
  | [] => table
  | i :: code =>
    match i.label? with
    | some name => LabelTable.enter (table.insert name line) line code
    | none => LabelTable.enter table (line + 1) code

/-- Labels are entered from left to right, each at the number of instructions before it. -/
theorem LabelTable.enter_append (table : LabelTable) (line : Nat) (code code' : List Instr) :
    table.enter line (code ++ code') =
      (table.enter line code).enter (line + (strip code).length) code' := by
  induction code generalizing table line with
  | nil => rfl
  | cons i code ih =>
    cases h : i.label? with
    | some name => simp [enter, h, ih, strip, Instr.isLabel]
    | none =>
      simp only [List.cons_append, enter, h, ih]
      simp [strip, Instr.isLabel, h, Nat.add_assoc, Nat.add_comm 1]

/-- The label table of a code. -/
def labelTable (code : List Instr) : LabelTable := LabelTable.enter ∅ 0 code

/-- The line number for a destination. -/
def Target.link (table : LabelTable) : Target → Except Fault Target
  | label name =>
    match table[name]? with
    | some number => .ok (.line number)
    | none => .error (.undefinedLabel name)
  | line number => .ok (.line number)

/-- An instruction with its destination linked. -/
def Instr.link (table : LabelTable) : Instr → Except Fault Instr
  | jump target cond left right => (target.link table).map (.jump · cond left right)
  | rawJump target operands => (target.link table).map (.rawJump · operands)
  | i => .ok i

theorem Instr.link_of_target?_eq_none {i : Instr} (table : LabelTable) (h : i.target? = none) :
    i.link table = .ok i := by
  cases i <;> simp_all [link, target?]

/-- The linked form of a code, or the fault of the first jump to an undefined label. -/
def link (code : List Instr) : Except Fault (List Instr) :=
  (strip code).mapM (Instr.link (labelTable code))

end LogicAsm
