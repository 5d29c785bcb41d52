import Mathlib.Logic.Relation
import LogicAsm.Proofs.LabelTable
import LogicAsm.Proofs.Provenance

/-!
# Control stays inside the program

Every label of a program stands behind the preamble and before the halt, whether it is made up or
written, in the program itself or in the copy of a function. So a symbolic jump is linked to a line
of the program or to the halt (`line_of_label`), and control that only falls through or jumps by
such a jump neither leaves the code nor comes back to the preamble (`control_stays_inside`).
-/

namespace LogicAsm

/-! ## Lines between the preamble and the halt -/

/-- The code of a program begins with the preamble and ends with the halt. -/
theorem exists_code_between {program : Body} {code : List Instr} (h : codeOf program = .ok code) :
    ∃ body, code = preamble ++ body ++ [.halt] := by
  obtain ⟨_, ⟨ss, qs, c', rfl, -, rfl⟩, rfl⟩ := codeOf_eq_ok_iff.mp h
  exact ⟨Piece.flatten qs, by simp⟩

theorem lines_preamble : lines preamble = 5 := rfl

/-- A label stands behind the preamble and before the halt. -/
theorem lines_before_label {body pre post : List Instr}
    (h : preamble ++ body ++ [.halt] = pre ++ .label name :: post) :
    5 ≤ lines pre ∧ lines pre < lines (preamble ++ body ++ [.halt]) := by
  have hmem : .halt ∈ Instr.label name :: post := by
    refine List.mem_of_getLast? ?_
    have hlast := congrArg List.getLast? h
    simpa using hlast.symm
  have hpost : 0 < lines post := by
    refine List.length_pos_of_mem (a := .halt) (mem_strip.mpr ⟨?_, rfl⟩)
    simpa using hmem
  refine ⟨?_, by rw [h, lines_append, lines_cons_label]; omega⟩
  rw [List.append_assoc] at h
  rcases List.append_eq_append_iff.mp h with ⟨as, rfl, -⟩ | ⟨bs, hbs, hlabel⟩
  · rw [lines_append, lines_preamble]
    exact Nat.le_add_right 5 _
  · cases bs with
    | nil =>
      rw [List.append_nil] at hbs
      exact hbs ▸ Nat.le_of_eq lines_preamble.symm
    | cons b bs =>
      -- The preamble defines no label.
      cases hlabel
      have hin : .label name ∈ preamble := by simp [hbs]
      simp [preamble] at hin

/-! ## Linked code -/

theorem length_between {body linked : List Instr}
    (h : link (preamble ++ body ++ [.halt]) = .ok linked) :
    linked.length = lines (preamble ++ body) + 1 := by
  rw [length_of_link h, lines_append]
  rfl

theorem halt_of_link {body linked : List Instr}
    (h : link (preamble ++ body ++ [.halt]) = .ok linked) :
    linked[linked.length - 1]? = some .halt := by
  obtain ⟨j, hj, hat⟩ := getElem?_of_link (i := .halt) h rfl rfl
  cases hj
  rwa [length_between h, Nat.add_sub_cancel]

/-- A symbolic jump goes to a line behind the preamble, or to the halt. -/
theorem line_of_label {body linked : List Instr}
    (h : link (preamble ++ body ++ [.halt]) = .ok linked) {i j : Instr} {name : String}
    (hi : i.target? = some (.label name))
    (hj : i.link (labelTable (preamble ++ body ++ [.halt])) = .ok j) :
    ∃ k : Nat, j.target? = some (.line k) ∧ 5 ≤ k ∧ k < linked.length := by
  obtain ⟨target, ht, hj⟩ := Instr.target?_of_link hj hi
  rw [Target.link] at ht
  split at ht
  · rename_i k hk
    cases ht
    obtain ⟨pre, post, hcode, -, rfl⟩ := labelTable_eq_some_iff.mp hk
    rw [length_of_link h]
    exact ⟨_, hj, lines_before_label hcode⟩
  · cases ht

/-- The program writes no jump to the number of a line. -/
def Stmt.NoNumbers (within : List Stmt) : Prop :=
  ∀ source i k, .asm source ∈ within → Instr.ofLine (between source) = .ok i →
    i.target? ≠ some (.line k)

theorem Instr.Emitted.target?_ne_line {within : List Stmt} {i : Instr} (h : i.Emitted within)
    (hn : Stmt.NoNumbers within) (k : Int) : i.target? ≠ some (.line k) := by
  cases h with
  | plain h => simp [h.target?_eq_none]
  | structLabel | structTest | structJump | label | goto => rintro ⟨⟩
  | asm h hi => exact hn _ _ k h hi

/-! ## Runs -/

/-- A step of control: it falls through to the next line unless the line is the halt, or it takes
the jump on the line. -/
inductive Moves (code : List Instr) : Int → Int → Prop where
  | next {p : Nat} {i : Instr} (h : code[p]? = some i) (hi : i ≠ .halt) : Moves code p (p + 1)
  | jump {p : Nat} {i : Instr} {k : Int} (h : code[p]? = some i)
      (hi : i.target? = some (.line k)) : Moves code p k

open Relation (ReflTransGen TransGen)

/-- Code that control does not leave: it ends with the halt, and jumps go to lines from the sixth
one on. -/
structure Confined (code : List Instr) : Prop where
  halt : code[code.length - 1]? = some .halt
  jumps : ∀ i ∈ code, ∀ k, i.target? = some (.line k) → 5 ≤ k ∧ k < code.length

namespace Confined

variable {code : List Instr} {p q : Int}

/-- One step: to the next line, which is there because only the halt is the last, or by a jump. -/
theorem step (h : Confined code) (hm : Moves code p q) :
    0 ≤ q ∧ q < code.length ∧ (q = p + 1 ∨ 5 ≤ q) := by
  cases hm with
  | @next p i hp hi =>
    have hlt : p < code.length := (List.getElem?_eq_some_iff.mp hp).1
    have hne : p ≠ code.length - 1 := by
      rintro rfl
      exact hi (Option.some.inj (hp.symm.trans h.halt))
    omega
  | jump hp hi =>
    have hk := h.jumps _ (List.mem_of_getElem? hp) _ hi
    omega

/-- Runs: no line of the preamble comes after a line that is not before it. -/
theorem run (h : Confined code) (hr : TransGen (Moves code) p q) : p < q ∨ 5 ≤ q := by
  induction hr with
  | single hm =>
    have := h.step hm
    omega
  | tail _ hm ih =>
    have := h.step hm
    omega

theorem inside (h : Confined code) (hr : ReflTransGen (Moves code) 0 p) :
    0 ≤ p ∧ p < code.length := by
  induction hr with
  | refl =>
    have hlt := (List.getElem?_eq_some_iff.mp h.halt).1
    omega
  | tail _ hm _ =>
    have := h.step hm
    omega

end Confined

/-- The linked code of a program is confined if the program writes no numbers of lines. -/
theorem confined_of_link {program : Body} {body linked : List Instr}
    (hcode : codeOf program = .ok (preamble ++ body ++ [.halt]))
    (hlink : link (preamble ++ body ++ [.halt]) = .ok linked)
    (hn : Stmt.NoNumbers program.within) : Confined linked := by
  refine ⟨halt_of_link hlink, ?_⟩
  intro j hj k hk
  obtain ⟨i, hi, hij⟩ := exists_of_mem_link hlink hj
  have hemitted := emitted_of_codeOf hcode i hi
  cases ht : i.target? with
  | none =>
    rw [Instr.link_of_target?_eq_none _ ht] at hij
    cases hij
    rw [ht] at hk
    cases hk
  | some target =>
    cases target with
    | line number => exact (hemitted.target?_ne_line hn number ht).elim
    | label name =>
      obtain ⟨k', hk', hlo, hhi⟩ := line_of_label hlink ht hij
      cases hk.symm.trans hk'
      omega

/-- Control stays inside the program. Linked code has at least six lines and ends with the halt, and
a jump that was symbolic goes to a line from 5 to the last one. So if no line of assembly jumps to a
number, a run from the first line stays on the lines of the code. It does not come back from
line 5 or later to the preamble, and it passes the lines of the preamble in order. -/
theorem control_stays_inside {program : Body} {code linked : List Instr}
    (hcode : codeOf program = .ok code) (hlink : link code = .ok linked) :
    6 ≤ linked.length ∧ linked.getLast? = some .halt ∧
      (∀ pre i post name, code = pre ++ i :: post → i.target? = some (.label name) →
        ∃ (j : Instr) (k : Nat), linked[lines pre]? = some j ∧ j.target? = some (.line k) ∧
          5 ≤ k ∧ k ≤ linked.length - 1) ∧
      (Stmt.NoNumbers program.within →
        ∀ p, ReflTransGen (Moves linked) 0 p → 0 ≤ p ∧ p < linked.length ∧
          ∀ q, TransGen (Moves linked) p q → (5 ≤ p → 5 ≤ q) ∧ (q < 5 → p < q)) := by
  obtain ⟨body, rfl⟩ := exists_code_between hcode
  have hsix : 6 ≤ linked.length := by
    rw [length_between hlink, lines_append, lines_preamble]
    omega
  refine ⟨hsix, by rw [List.getLast?_eq_getElem?, halt_of_link hlink], ?_, ?_⟩
  · intro pre i post name hat hi
    have hlabel : i.isLabel = false := by cases i <;> first | rfl | cases hi
    obtain ⟨j, hj, hline⟩ := getElem?_of_link hlink hat hlabel
    obtain ⟨k, hk, hlo, hhi⟩ := line_of_label hlink hi hj
    exact ⟨j, k, hline, hk, hlo, by omega⟩
  · intro hnone p hp
    have hconfined := confined_of_link hcode hlink hnone
    have hinside := hconfined.inside hp
    refine ⟨hinside.1, hinside.2, ?_⟩
    intro q hq
    have := hconfined.run hq
    omega

/-- A loop that jumps back to the first line of the program, by itself and by a function. -/
def returning : List Stmt :=
  [.function "f" (.block [.asm "'jump top x'"]), .label "top",
    .whileDo (.name "a") (.block [.expr (.call "f"), .goto "top"])]

namespace returning

/-- Its code: one label stands right behind the preamble, another right before the halt. -/
def code : List Instr :=
  preamble ++ [.label "top", .label (whileLabel 0), .set Machine.acc "a",
    .gotoUnless (.label (contLabel 0)), .rawJump (.label "top") ["x"], .goto (.label "top"),
    .goto (.label (whileLabel 0)), .label (contLabel 0), .halt]

def linked : List Instr :=
  preamble ++ [.set Machine.acc "a", .gotoUnless (.line 10), .rawJump (.line 5) ["x"],
    .goto (.line 5), .goto (.line 5), .halt]

theorem ofLine_eq :
    Instr.ofLine (between "'jump top x'") = .ok (.rawJump (.label "top") ["x"]) := by
  decide +kernel

theorem codeOf_eq : codeOf (.program returning) = .ok code :=
  codeOf_eq_ok_iff.mpr ⟨_, ⟨returning, _, _, rfl,
    .cons (.function rfl (.asm ofLine_eq)) (.cons .label
      (.whileDo (.atom rfl) rfl (.cons (.expr (.call rfl)) .goto))), rfl⟩, rfl⟩

theorem link_eq : link code = .ok linked := rfl

theorem noNumbers : Stmt.NoNumbers (Body.program returning).within := by
  intro source i k hs hi
  obtain rfl : source = "'jump top x'" := by
    simpa [returning, Body.within, Stmt.within] using hs
  rw [ofLine_eq] at hi
  cases hi
  rintro ⟨⟩

end returning

/-- The jumps go to line 5 and to the halt on line 10, the least and the greatest there can be. -/
theorem control_stays_inside_returning :
    codeOf (.program returning) = .ok returning.code ∧
      link returning.code = .ok returning.linked ∧
      ∀ p, ReflTransGen (Moves returning.linked) 0 p → 0 ≤ p ∧ p < 11 ∧
        ∀ q, TransGen (Moves returning.linked) p q → (5 ≤ p → 5 ≤ q) ∧ (q < 5 → p < q) :=
  ⟨returning.codeOf_eq, returning.link_eq,
    (control_stays_inside returning.codeOf_eq returning.link_eq).2.2.2 returning.noNumbers⟩

end LogicAsm
