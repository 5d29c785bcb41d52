import Std.Data.TreeMap
import LogicAsm.Fault
import LogicAsm.Instr.Basic

/-!
# Generators

The state behind code generation, and the actions that extend it. A fault ends an action but
keeps what was emitted before it. Each action has an equation for its run.
-/

namespace LogicAsm

/-- A buffer of code, and the counter from which control structures get the numbers of their
labels. -/
structure Builder where
  code : List Instr := []
  nextId : Nat := 0

/-- The code of each declared function. -/
abbrev FunctionTable := Std.TreeMap String (List Instr)

/-- A builder together with the functions declared so far. -/
structure Generator extends Builder where
  functions : FunctionTable := ∅

/-- An action on a generator. -/
abbrev Gen := EStateM Fault Generator

namespace Gen

/-- Append instructions to the buffer. -/
def emitAll (code : List Instr) : Gen Unit :=
  modify fun g => { g with code := g.code ++ code }

/-- Append an instruction to the buffer. -/
def emit (i : Instr) : Gen Unit := emitAll [i]

/-- A number that was not given before. -/
def freshId : Gen Nat :=
  modifyGet fun g => (g.nextId, { g with nextId := g.nextId + 1 })

/-- Replace the buffer, and return the former one. -/
def swapCode (code : List Instr) : Gen (List Instr) :=
  modifyGet fun g => (g.code, { g with code := code })

/-- Save a register on the memory bank. -/
def push (reg : String) : Gen Unit :=
  emitAll [
    .write reg Machine.memoryBank Machine.stackPtr,
    .op "add" Machine.stackPtr Machine.stackPtr "1"]

/-- Load a register with the value that was saved last. -/
def pop (reg : String) : Gen Unit :=
  emitAll [
    .op "sub" Machine.stackPtr Machine.stackPtr "1",
    .read reg Machine.memoryBank Machine.stackPtr]

/-- The code of a declared function. -/
def lookup (name : String) : Gen (List Instr) := do
  match (← get).functions[name]? with
  | some code => return code
  | none => throw (.unknownFunction name)

/-- Declare a function. An earlier one of the same name is replaced. -/
def declare (name : String) (code : List Instr) : Gen Unit :=
  modify fun g => { g with functions := g.functions.insert name code }

/-- The code that an action emits. The buffer is as before afterwards, also if the action
fails. -/
def detached (act : Gen Unit) : Gen (List Instr) := fun g =>
  match act.run { g with code := [] } with
  | .ok _ g' => .ok g'.code { g' with code := g.code }
  | .error fault g' => .error fault { g' with code := g.code }

/-! ## Runs -/

variable (g : Generator)

@[simp] theorem run_emitAll (code : List Instr) :
    (emitAll code).run g = .ok () { g with code := g.code ++ code } := rfl

@[simp] theorem run_emit (i : Instr) :
    (emit i).run g = .ok () { g with code := g.code ++ [i] } := rfl

@[simp] theorem run_freshId :
    freshId.run g = .ok g.nextId { g with nextId := g.nextId + 1 } := rfl

@[simp] theorem run_swapCode (code : List Instr) :
    (swapCode code).run g = .ok g.code { g with code := code } := rfl

@[simp] theorem run_declare (name : String) (code : List Instr) :
    (declare name code).run g =
      .ok () { g with functions := g.functions.insert name code } := rfl

theorem run_lookup_of_some {name : String} {code : List Instr}
    (h : g.functions[name]? = some code) : (lookup name).run g = .ok code g := by
  simp [lookup, h]

theorem run_lookup_of_none {name : String} (h : g.functions[name]? = none) :
    (lookup name).run g = .error (.unknownFunction name) g := by
  simp only [lookup, EStateM.run_bind, EStateM.run_get, h]
  rfl

theorem run_detached (act : Gen Unit) :
    (detached act).run g =
      match act.run { g with code := [] } with
      | .ok _ g' => .ok g'.code { g' with code := g.code }
      | .error fault g' => .error fault { g' with code := g.code } := rfl

end Gen

end LogicAsm
