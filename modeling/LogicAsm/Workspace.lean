import LogicAsm.Linking
import LogicAsm.Lowering.Stmt

/-!
# Workspaces

A workspace holds generators that are used step by step. Generators may share a builder: then
they write to one buffer and number their labels by one counter, but each knows only the
functions it declared itself. A failed action keeps what was done before the fault.
-/

namespace LogicAsm

/-! ## Actions of one generator -/

/-- What a generator can be asked for. -/
inductive Action where
  | lowerExpr (e : Expr)
  | lowerStmt (s : Stmt)
  | lowerBody (b : Body)
  | generate (root : Body)
  | emit (i : Instr)
  | emitAll (code : List Instr)
  | push (reg : String)
  | pop (reg : String)
  | freshId
  | swapCode (code : List Instr)
  | link
  | print

/-- The answer of a generator. -/
inductive Reply where
  | done
  | number (n : Nat)
  | code (code : List Instr)
  | lines (lines : List String)

/-- Carry out an action. -/
def Action.run : Action → Gen Reply
  | lowerExpr e => do e.lower; return .done
  | lowerStmt s => do s.lower; return .done
  | lowerBody b => do b.lower; return .done
  | generate root => return .number (← root.generate).length
  | emit i => do Gen.emit i; return .done
  | emitAll code => do Gen.emitAll code; return .done
  | push reg => do Gen.push reg; return .done
  | pop reg => do Gen.pop reg; return .done
  | freshId => return .number (← Gen.freshId)
  | swapCode code => return .code (← Gen.swapCode code)
  | link => return .code (← ofExcept (LogicAsm.link (← get).code))
  | print => return .lines (← ofExcept (Instr.toLines (← get).code))

/-! ## Several generators -/

/-- A generator of a workspace: the number of its builder, and its own functions. -/
structure Member where
  builder : Nat
  functions : FunctionTable := ∅

/-- Builders, and the generators that use them, each numbered from zero. -/
structure Workspace where
  builders : List Builder
  members : List Member

namespace Workspace

/-- One generator on a fresh builder. -/
def initial : Workspace where
  builders := [{}]
  members := [{ builder := 0 }]

/-- The present state of a generator. -/
def generator? (w : Workspace) (n : Nat) : Option Generator := do
  let member ← w.members[n]?
  let builder ← w.builders[member.builder]?
  return { builder with functions := member.functions }

/-- Put back the state of a generator. -/
def setGenerator (w : Workspace) (n : Nat) (g : Generator) : Workspace :=
  match w.members[n]? with
  | some member =>
    { builders := w.builders.set member.builder g.toBuilder
      members := w.members.set n { member with functions := g.functions } }
  | none => w

/-- A generator that was put back is the one that is found. -/
theorem generator?_setGenerator {w : Workspace} {n : Nat} {g g' : Generator}
    (h : w.generator? n = some g) : (w.setGenerator n g').generator? n = some g' := by
  cases hm : w.members[n]? with
  | none => simp [generator?, hm] at h
  | some member =>
    cases hb : w.builders[member.builder]? with
    | none => simp [generator?, hm, hb] at h
    | some builder =>
      obtain ⟨hn, rfl⟩ := List.getElem?_eq_some_iff.mp hm
      obtain ⟨hk, -⟩ := List.getElem?_eq_some_iff.mp hb
      simp [generator?, setGenerator, hn, hk]

/-- A workspace with one more generator, on a fresh builder. -/
def addFresh (w : Workspace) : Workspace where
  builders := w.builders ++ [{}]
  members := w.members ++ [{ builder := w.builders.length }]

/-- A workspace with one more generator, on the builder of generator `n`. -/
def addSharing (w : Workspace) (n : Nat) : Option Workspace := do
  let member ← w.members[n]?
  return { w with members := w.members ++ [{ builder := member.builder }] }

/-! ## Sessions -/

/-- A step of a session. -/
inductive Step where
  | addFresh
  | addSharing (n : Nat)
  | act (n : Nat) (action : Action)

/-- What a step shows: its result, and the state of the generator it was about. -/
structure Outcome where
  result : Except Fault Reply
  state : Generator

/-- Carry out an action of generator `n`. -/
def act (w : Workspace) (n : Nat) (action : Action) : Option (Outcome × Workspace) := do
  match action.run.run (← w.generator? n) with
  | .ok reply g => return (⟨.ok reply, g⟩, w.setGenerator n g)
  | .error fault g => return (⟨.error fault, g⟩, w.setGenerator n g)

/-- Carry out a step. A new generator answers with its number. There is no outcome if the step
names a generator that does not exist. -/
def step (w : Workspace) : Step → Option (Outcome × Workspace)
  | .addFresh => some (⟨.ok (.number w.members.length), {}⟩, w.addFresh)
  | .addSharing n => do
    let w' ← w.addSharing n
    let g ← w'.generator? w.members.length
    return (⟨.ok (.number w.members.length), g⟩, w')
  | .act n action => w.act n action

/-- The state that an action shows is the state it leaves. -/
theorem generator?_of_act {w w' : Workspace} {n : Nat} {action : Action} {o : Outcome}
    (h : w.act n action = some (o, w')) : w'.generator? n = some o.state := by
  cases hg : w.generator? n with
  | none => simp [act, hg] at h
  | some g =>
    simp only [act, hg, Option.bind_eq_bind, Option.bind_some] at h
    split at h <;> cases h <;> exact generator?_setGenerator hg

/-- Carry out steps in order. -/
def run (w : Workspace) : List Step → Option (List Outcome)
  | [] => some []
  | s :: steps => do
    let (outcome, w) ← w.step s
    return outcome :: (← w.run steps)

end Workspace

end LogicAsm
