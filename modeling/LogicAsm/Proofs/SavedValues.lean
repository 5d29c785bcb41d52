import Mathlib.Data.List.Infix
import Mathlib.Data.List.MinMax
import Mathlib.Order.Nat
import LogicAsm.Proofs.Outline

/-!
# Saved values

Code can use the memory bank as a stack: a register is saved behind the values that are there, and
the value that was saved last is loaded again. In balanced code values are saved and loaded in pairs
that are well nested (`Balanced`). The greatest number of values that are saved at the same time is
found at one of the prefixes of the code (`peak`). Codes that follow each other go as deep as the
deeper one, and code between saving and loading a value goes one level deeper (`Spills.append`,
`Spills.enclose`).
-/

namespace LogicAsm

/-! ## The stack pointer -/

namespace Instr

/-- The name that receives the value of an instruction. -/
def dest? : Instr → Option String
  | set dest _ | op _ dest _ _ | read dest _ _ | sensor dest _ _ => some dest
  | _ => none

/-- Move the stack pointer behind a saved value. -/
def raiseStack : Instr := .op "add" Machine.stackPtr Machine.stackPtr "1"

/-- Move the stack pointer back to the value that was saved last. -/
def lowerStack : Instr := .op "sub" Machine.stackPtr Machine.stackPtr "1"

end Instr

open Instr (raiseStack lowerStack)

/-- The number of values that a code saves. -/
def pushes (code : List Instr) : Nat := code.count raiseStack

/-- The number of values that a code loads. -/
def pops (code : List Instr) : Nat := code.count lowerStack

@[simp] theorem pushes_append (code code' : List Instr) :
    pushes (code ++ code') = pushes code + pushes code' := List.count_append

@[simp] theorem pops_append (code code' : List Instr) :
    pops (code ++ code') = pops code + pops code' := List.count_append

@[simp] theorem pushes_pushCode (reg : String) : pushes (pushCode reg) = 1 := rfl

@[simp] theorem pops_pushCode (reg : String) : pops (pushCode reg) = 0 := rfl

@[simp] theorem pushes_popCode (reg : String) : pushes (popCode reg) = 0 := rfl

@[simp] theorem pops_popCode (reg : String) : pops (popCode reg) = 1 := rfl

/-- Instructions that do not move the stack pointer. -/
def StackFree (code : List Instr) : Prop := ∀ i ∈ code, i.dest? ≠ some Machine.stackPtr

@[simp] theorem stackFree_nil : StackFree [] := by simp [StackFree]

@[simp] theorem stackFree_cons {i : Instr} {code : List Instr} :
    StackFree (i :: code) ↔ i.dest? ≠ some Machine.stackPtr ∧ StackFree code := by
  simp [StackFree]

theorem StackFree.of_prefix {code pre : List Instr} (h : StackFree code) (hpre : pre <+: code) :
    StackFree pre :=
  fun i hi => h i (hpre.subset hi)

theorem StackFree.pushes_eq_zero {code : List Instr} (h : StackFree code) : pushes code = 0 :=
  List.count_eq_zero.mpr fun hi => h _ hi rfl

theorem StackFree.pops_eq_zero {code : List Instr} (h : StackFree code) : pops code = 0 :=
  List.count_eq_zero.mpr fun hi => h _ hi rfl

/-- The values that are saved after a code, and not loaded again. -/
def saved (code : List Instr) : Nat := pushes code - pops code

/-- The greatest number of values that are saved at the same time on the way through a code. -/
def peak (code : List Instr) : Nat := (code.inits.map saved).foldr max 0

theorem peak_le_iff {code : List Instr} {n : Nat} :
    peak code ≤ n ↔ ∀ pre, pre <+: code → saved pre ≤ n := by
  constructor
  · intro h pre hpre
    have hmem : saved pre ∈ code.inits.map saved :=
      List.mem_map_of_mem ((List.mem_inits _ _).mpr hpre)
    exact (List.le_max_of_le hmem (Nat.le_refl _)).trans h
  · intro h
    refine List.max_le_of_forall_le _ _ (List.forall_mem_map.mpr fun pre hpre => ?_)
    exact h pre ((List.mem_inits _ _).mp hpre)

/-- The stack pointer moves only directly behind the accumulator being saved, and directly before
the second register is loaded. -/
def StackMoves (code : List Instr) : Prop :=
  ∀ pre i post, code = pre ++ i :: post → i.dest? = some Machine.stackPtr →
    (i = raiseStack ∧ ∃ pre', pre =
        pre' ++ [.write Machine.acc Machine.memoryBank Machine.stackPtr]) ∨
      (i = lowerStack ∧ ∃ post', post =
        .read Machine.regB Machine.memoryBank Machine.stackPtr :: post')

/-- A code that works with the memory bank as with a stack. -/
structure Balanced (code : List Instr) : Prop where
  moves : StackMoves code
  /-- No value is loaded before it is saved. -/
  nested : ∀ pre, pre <+: code → pops pre ≤ pushes pre
  /-- All saved values are loaded in the end. -/
  settled : pops code = pushes code

namespace StackMoves

theorem append {code code' : List Instr} (h : StackMoves code) (h' : StackMoves code') :
    StackMoves (code ++ code') := by
  intro pre i post hcode hi
  rcases List.append_eq_append_iff.mp hcode with ⟨as, rfl, hcode'⟩ | ⟨bs, rfl, hpost⟩
  · -- The instruction stands in the second code.
    rcases h' as i post hcode' hi with ⟨rfl, pre', rfl⟩ | hlower
    · exact .inl ⟨rfl, code ++ pre', by simp⟩
    · exact .inr hlower
  · cases bs with
    | nil =>
      rcases h' [] i post hpost.symm hi with ⟨-, pre', hpre⟩ | hlower
      · simp at hpre
      · exact .inr hlower
    | cons j bs =>
      cases hpost
      rcases h pre i bs rfl hi with hraise | ⟨rfl, post', rfl⟩
      · exact .inl hraise
      · exact .inr ⟨rfl, post' ++ code', rfl⟩

theorem of_stackFree {code : List Instr} (h : StackFree code) : StackMoves code := by
  rintro pre i post rfl hi
  exact (h i (by simp) hi).elim

theorem pushCode : StackMoves (pushCode Machine.acc) := by
  rintro (_ | ⟨j, _ | ⟨k, pre⟩⟩) i post hcode hi
  · cases hcode
    cases hi
  · cases hcode
    exact .inl ⟨rfl, [], rfl⟩
  · simp [LogicAsm.pushCode] at hcode

theorem popCode : StackMoves (popCode Machine.regB) := by
  rintro (_ | ⟨j, _ | ⟨k, pre⟩⟩) i post hcode hi
  · cases hcode
    exact .inr ⟨rfl, [], rfl⟩
  · cases hcode
    exact absurd hi (by decide)
  · simp [LogicAsm.popCode] at hcode

end StackMoves

/-- A prefix of joined codes ends in the first or in the second one. -/
theorem forall_prefix_append {P : List Instr → Prop} {code code' : List Instr} :
    (∀ pre, pre <+: code ++ code' → P pre) ↔
      (∀ pre, pre <+: code → P pre) ∧ ∀ pre, pre <+: code' → P (code ++ pre) := by
  constructor
  · intro h
    refine ⟨fun pre hpre => h pre (hpre.trans (List.prefix_append ..)), fun pre hpre => h _ ?_⟩
    exact (List.prefix_append_right_inj code).mpr hpre
  · rintro ⟨h, h'⟩ pre hpre
    rcases List.prefix_or_prefix_of_prefix hpre (List.prefix_append code code') with hp | ⟨q, rfl⟩
    · exact h pre hp
    · exact h' q ((List.prefix_append_right_inj code).mp hpre)

theorem forall_prefix_pair {P : List Instr → Prop} {i j : Instr} :
    (∀ pre, pre <+: [i, j] → P pre) ↔ P [] ∧ P [i] ∧ P [i, j] := by
  constructor
  · intro h
    exact ⟨h _ (List.nil_prefix), h _ ⟨[j], rfl⟩, h _ (List.prefix_refl _)⟩
  · rintro ⟨h, h₁, h₂⟩ pre hpre
    have hmem : pre ∈ [[], [i], [i, j]] := (List.mem_inits pre [i, j]).mpr hpre
    simp only [List.mem_cons, List.not_mem_nil, or_false] at hmem
    rcases hmem with rfl | rfl | rfl <;> assumption

/-- The counts in a prefix of code between saving and loading a value: before the value is saved,
while it is, and after it is loaded again. -/
theorem forall_prefix_enclose (code : List Instr) :
    ∀ q, q <+: pushCode Machine.acc ++ (code ++ popCode Machine.regB) →
      (pushes q = 0 ∧ pops q = 0) ∨
        (∃ pre, pre <+: code ∧ pushes q = 1 + pushes pre ∧ pops q = pops pre) ∨
        (pushes q = 1 + pushes code ∧ pops q = 1 + pops code) := by
  rw [forall_prefix_append, forall_prefix_append]
  refine ⟨forall_prefix_pair.mpr ⟨.inl ⟨rfl, rfl⟩, .inl ⟨rfl, rfl⟩, ?_⟩, ?_, ?_⟩
  · exact .inr (.inl ⟨[], List.nil_prefix, rfl, rfl⟩)
  · intro pre hpre
    exact .inr (.inl ⟨pre, hpre, by simp⟩)
  · refine forall_prefix_pair.mpr ⟨.inr (.inl ⟨code, List.prefix_refl _, by simp⟩), .inr (.inr ?_),
      .inr (.inr ?_)⟩
    · have hpush : pushes [lowerStack] = 0 := rfl
      have hpop : pops [lowerStack] = 1 := rfl
      rw [lowerStack] at hpush hpop
      simp [hpush, hpop, Nat.add_comm]
    · have hpush := pushes_popCode Machine.regB
      have hpop := pops_popCode Machine.regB
      rw [popCode] at hpush hpop
      simp [hpush, hpop, Nat.add_comm]

/-! ## Balanced code -/

namespace Balanced

variable {code code' : List Instr}

theorem of_stackFree (h : StackFree code) : Balanced code := by
  refine ⟨.of_stackFree h, fun pre hpre => ?_, by rw [h.pops_eq_zero, h.pushes_eq_zero]⟩
  rw [(h.of_prefix hpre).pops_eq_zero]
  exact Nat.zero_le _

theorem append (h : Balanced code) (h' : Balanced code') : Balanced (code ++ code') := by
  refine ⟨h.moves.append h'.moves, forall_prefix_append.mpr ⟨h.nested, fun pre hpre => ?_⟩, ?_⟩
  · have hle := h'.nested pre hpre
    rw [pops_append, pushes_append, h.settled]
    exact Nat.add_le_add_left hle _
  · rw [pops_append, pushes_append, h.settled, h'.settled]

theorem enclose (h : Balanced code) :
    Balanced (pushCode Machine.acc ++ (code ++ popCode Machine.regB)) := by
  refine ⟨.append .pushCode (h.moves.append .popCode), fun q hq => ?_, ?_⟩
  · rcases forall_prefix_enclose code q hq with
      ⟨hpush, hpop⟩ | ⟨pre, hpre, hpush, hpop⟩ | ⟨hpush, hpop⟩
    · rw [hpush, hpop]
    · have := h.nested pre hpre
      omega
    · rw [hpush, hpop, h.settled]
  · simp only [pushes_append, pops_append, pushes_pushCode, pops_pushCode, pushes_popCode,
      pops_popCode, h.settled]
    omega

/-- Nothing is left on the stack for the second code to start from. -/
theorem peak_append (h : Balanced code) (code' : List Instr) :
    peak (code ++ code') = max (peak code) (peak code') := by
  have hsaved (pre : List Instr) : saved (code ++ pre) = saved pre := by
    rw [saved, pushes_append, pops_append, h.settled, Nat.add_sub_add_left, saved]
  refine eq_of_forall_ge_iff fun n => ?_
  rw [max_le_iff, peak_le_iff, peak_le_iff, peak_le_iff, forall_prefix_append]
  simp only [hsaved]

/-- The value that is saved counts on top of those that the code saves. -/
theorem peak_enclose (h : Balanced code) :
    peak (pushCode Machine.acc ++ (code ++ popCode Machine.regB)) = 1 + peak code := by
  apply Nat.le_antisymm
  · have hpeak := peak_le_iff.mp (Nat.le_refl (peak code))
    refine peak_le_iff.mpr fun q hq => ?_
    rw [saved]
    rcases forall_prefix_enclose code q hq with
      ⟨hpush, hpop⟩ | ⟨pre, hpre, hpush, hpop⟩ | ⟨hpush, hpop⟩
    · omega
    · have hle := hpeak pre hpre
      rw [saved] at hle
      omega
    · have := h.settled
      omega
  · have hinside (pre : List Instr) (hpre : pre <+: code) :
        1 + saved pre ≤ peak (pushCode Machine.acc ++ (code ++ popCode Machine.regB)) := by
      have hq : pushCode Machine.acc ++ pre <+:
          pushCode Machine.acc ++ (code ++ popCode Machine.regB) :=
        (List.prefix_append_right_inj _).mpr (hpre.trans (List.prefix_append ..))
      have hsaved := peak_le_iff.mp (Nat.le_refl _) _ hq
      have hle := h.nested pre hpre
      simp only [saved, pushes_append, pops_append, pushes_pushCode, pops_pushCode] at hsaved ⊢
      omega
    have hpeak : peak code ≤
        peak (pushCode Machine.acc ++ (code ++ popCode Machine.regB)) - 1 :=
      peak_le_iff.mpr fun pre hpre => Nat.le_sub_of_add_le' (hinside pre hpre)
    have hone := hinside [] List.nil_prefix
    omega

end Balanced

/-- The code is balanced, and reaches the given depth. -/
structure Spills (code : List Instr) (n : Nat) : Prop where
  balanced : Balanced code
  peak_eq : peak code = n

namespace Spills

variable {code code' : List Instr} {m n : Nat}

theorem of_stackFree (h : StackFree code) : Spills code 0 := by
  refine ⟨.of_stackFree h, Nat.le_zero.mp (peak_le_iff.mpr fun pre hpre => ?_)⟩
  rw [saved, (h.of_prefix hpre).pushes_eq_zero, Nat.zero_sub]

theorem append (h : Spills code m) (h' : Spills code' n) : Spills (code ++ code') (max m n) :=
  ⟨h.balanced.append h'.balanced, by rw [h.balanced.peak_append, h.peak_eq, h'.peak_eq]⟩

theorem enclose (h : Spills code n) :
    Spills (pushCode Machine.acc ++ (code ++ popCode Machine.regB)) (1 + n) :=
  ⟨h.balanced.enclose, by rw [h.balanced.peak_enclose, h.peak_eq]⟩

theorem before (h : Spills code n) (h' : StackFree code') : Spills (code ++ code') n := by
  simpa using h.append (of_stackFree h')

theorem behind (h : Spills code n) (h' : StackFree code') : Spills (code' ++ code) n := by
  simpa using (of_stackFree h').append h

end Spills

end LogicAsm
