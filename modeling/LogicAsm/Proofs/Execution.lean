import Mathlib.Data.List.TakeWhile
import LogicAsm.Proofs.LabelTable

/-!
# Execution of symbolic and of linked code

A machine is given by what its instructions do to a state and by when a jump is taken. It can
run code with labels, where a label is passed over and a symbolic jump goes to the last
definition of its name, and linked code, where a jump goes to a line. Linking keeps the two in
step: the states agree, and positions in the code correspond to lines (`stepLinked_onLines`).
-/

namespace LogicAsm

/-! ## Machines -/

/-- What decides whether a jump is taken. -/
inductive Guard where
  | test (cond left right : String)
  /-- The operands of a jump of another form. -/
  | written (operands : List String)

/-- The destination and the guard of a jump. -/
def Instr.branch? : Instr → Option (Target × Guard)
  | jump target cond left right => some (target, .test cond left right)
  | rawJump target operands => some (target, .written operands)
  | _ => none

/-- Linking changes no instruction but a jump. -/
theorem Instr.eq_of_link {table : LabelTable} {i j : Instr} (h : i.link table = .ok j)
    (hi : i.branch? = none) : j = i := by
  cases i with
  | jump | rawJump => cases hi
  | _ => exact (Except.ok.inj h).symm

/-- Linking changes no more of a jump than its destination. -/
theorem Instr.branch?_of_link {table : LabelTable} {i j : Instr} (h : i.link table = .ok j)
    {target : Target} {g : Guard} (hi : i.branch? = some (target, g)) :
    ∃ target', target.link table = .ok target' ∧ j.branch? = some (target', g) := by
  cases i with
  | jump | rawJump =>
    cases hi
    rw [Instr.link] at h
    cases ht : target.link table with
    | error fault =>
      rw [ht] at h
      cases h
    | ok target' =>
      rw [ht] at h
      cases h
      exact ⟨target', rfl, rfl⟩
  | _ => cases hi

/-- A machine with states in `σ`: the effect of each instruction that is no jump, if the machine
goes on after it, and the states in which a jump is taken. -/
structure Interp (σ : Type u) where
  exec : Instr → σ → Option σ
  holds : Guard → σ → Bool

/-- Where a run stands, and the state it is in. -/
structure Config (σ : Type u) where
  pos : Nat
  state : σ

namespace Interp

variable {σ : Type u} (I : Interp σ)

/-- A step at the instruction where the run stands, if `dest` gives the positions of
destinations. There is none beyond the end of the code. -/
def step (dest : Target → Nat) (code : List Instr) (c : Config σ) : Option (Config σ) :=
  match code[c.pos]? with
  | none => none
  | some i =>
    match i.branch? with
    | some (target, guard) =>
      some { c with pos := if I.holds guard c.state then dest target else c.pos + 1 }
    | none => (I.exec i c.state).map fun s => { pos := c.pos + 1, state := s }

/-- The result of `n` steps. -/
def iterate (f : Config σ → Option (Config σ)) : Nat → Config σ → Option (Config σ)
  | 0, c => some c
  | n + 1, c => (f c).bind (iterate f n)

end Interp

/-! ## Positions and lines -/

/-- The position of the last definition of a name. -/
def lastLabel? (name : String) : List Instr → Option Nat
  | [] => none
  | i :: code =>
    match lastLabel? name code with
    | some p => some (p + 1)
    | none => if i = .label name then some 0 else none

/-- The position of the instruction with number `k`, if labels are not counted. -/
def nthInstr? : Nat → List Instr → Option Nat
  | _, [] => none
  | k, i :: code =>
    if i.isLabel then (nthInstr? k code).map (· + 1)
    else
      match k with
      | 0 => some 0
      | k + 1 => (nthInstr? k code).map (· + 1)

/-- Where a jump of symbolic code goes: to the last definition of a name, or to the instruction
with a number. If there is none, it goes to the end, where the run stops. -/
def positionOf (code : List Instr) : Target → Nat
  | .label name => (lastLabel? name code).getD code.length
  | .line k => if 0 ≤ k then (nthInstr? k.toNat code).getD code.length else code.length

/-- The first position from `p` on that is no label. -/
def skipLabels (code : List Instr) (p : Nat) : Nat :=
  p + ((code.drop p).takeWhile Instr.isLabel).length

/-- Where a jump of linked code goes: to a line, or to the end if there is no such line. -/
def lineDest (code : List Instr) : Target → Nat
  | .label _ => code.length
  | .line k => if 0 ≤ k ∧ k < code.length then k.toNat else code.length

/-- The line of a position: the number of instructions before it. -/
def lineOf (code : List Instr) (p : Nat) : Nat := lines (code.take p)

/-- A configuration of symbolic code, with its position as a line. -/
def onLines (code : List Instr) (c : Config σ) : Config σ := { c with pos := lineOf code c.pos }

namespace Interp

variable {σ : Type u} (I : Interp σ)

/-- A step of symbolic code. Labels are passed over. -/
def stepSymbolic (code : List Instr) (c : Config σ) : Option (Config σ) :=
  I.step (positionOf code) code { c with pos := skipLabels code c.pos }

/-- A step of linked code. -/
def stepLinked (code : List Instr) (c : Config σ) : Option (Config σ) :=
  I.step (lineDest code) code c

/-- The result of `n` steps of symbolic code. -/
def runSymbolic (code : List Instr) (n : Nat) (c : Config σ) : Option (Config σ) :=
  iterate (I.stepSymbolic code) n c

/-- The result of `n` steps of linked code. -/
def runLinked (code : List Instr) (n : Nat) (c : Config σ) : Option (Config σ) :=
  iterate (I.stepLinked code) n c

end Interp

/-! ### Lines -/

theorem lineOf_append (pre post : List Instr) : lineOf (pre ++ post) pre.length = lines pre := by
  simp [lineOf]

theorem lineOf_of_length_le {code : List Instr} {p : Nat} (h : code.length ≤ p) :
    lineOf code p = lines code := by
  rw [lineOf, List.take_of_length_le h]

theorem lineOf_cons_succ (i : Instr) (code : List Instr) (p : Nat) :
    lineOf (i :: code) (p + 1) = (if i.isLabel then 0 else 1) + lineOf code p := by
  cases hi : i.isLabel <;> simp [lineOf, lines, strip, hi, Nat.add_comm]

/-- The part of a code at a position that holds an instruction. -/
theorem eq_take_append_cons {code : List Instr} {p : Nat} {i : Instr} (h : code[p]? = some i) :
    code = code.take p ++ i :: code.drop (p + 1) := by
  obtain ⟨hp, rfl⟩ := List.getElem?_eq_some_iff.mp h
  rw [List.getElem_cons_drop, List.take_append_drop]

theorem lineOf_succ {code : List Instr} {p : Nat} {i : Instr} (h : code[p]? = some i) :
    lineOf code (p + 1) = lineOf code p + if i.isLabel then 0 else 1 := by
  rw [lineOf, List.take_add_one, h, lines_append, lineOf]
  cases hi : i.isLabel <;> simp [lines, strip, hi]

theorem lines_takeWhile_isLabel (code : List Instr) :
    lines (code.takeWhile Instr.isLabel) = 0 := by
  rw [lines, strip, List.length_eq_zero_iff, List.filter_eq_nil_iff]
  intro i hi
  simp [(List.mem_takeWhile_imp hi)]

theorem lineOf_skipLabels (code : List Instr) (p : Nat) :
    lineOf code (skipLabels code p) = lineOf code p := by
  have ht : (code.drop p).take ((code.drop p).takeWhile Instr.isLabel).length =
      (code.drop p).takeWhile Instr.isLabel :=
    List.prefix_iff_eq_take.mp (List.takeWhile_prefix _) |>.symm
  rw [lineOf, skipLabels, List.take_add, ht, lines_append, lines_takeWhile_isLabel, Nat.add_zero,
    lineOf]

theorem isLabel_of_getElem?_skipLabels {code : List Instr} {p : Nat} {i : Instr}
    (h : code[skipLabels code p]? = some i) : i.isLabel = false := by
  rw [skipLabels, ← List.getElem?_drop, ← List.takeWhile_append_dropWhile (p := Instr.isLabel)
    (l := code.drop p), List.getElem?_append_right] at h
  · have hd := List.head?_dropWhile_not Instr.isLabel (code.drop p)
    rw [List.takeWhile_append_dropWhile, Nat.sub_self, ← List.head?_eq_getElem?] at h
    rwa [h] at hd
  · rw [List.takeWhile_append_dropWhile]

/-! ### Destinations -/

/-- The position of a label is that of its last definition. -/
theorem lastLabel?_append {name : String} {pre post : List Instr} (h : name ∉ labelsOf post) :
    lastLabel? name (pre ++ .label name :: post) = some pre.length := by
  have hn : lastLabel? name post = none := by
    induction post with
    | nil => rfl
    | cons i post ih =>
      simp only [mem_labelsOf, List.mem_cons, not_or] at h ih
      simp [lastLabel?, ih h.2, Ne.symm h.1]
  induction pre with
  | nil => simp [lastLabel?, hn]
  | cons i pre ih => simp [lastLabel?, ih]

/-- The instruction with a number stands on the line of that number, and a number that is too
great leads to the end. -/
theorem lineOf_nthInstr? (k : Nat) (code : List Instr) :
    lineOf code ((nthInstr? k code).getD code.length) = min k (lines code) := by
  induction code generalizing k with
  | nil => simp [lineOf]
  | cons i code ih =>
    have hp (q : Option Nat) : (q.map (· + 1)).getD (code.length + 1) = q.getD code.length + 1 := by
      cases q <;> rfl
    cases hi : i.isLabel with
    | true =>
      simp only [nthInstr?, hi, if_true, List.length_cons, hp, lineOf_cons_succ, Nat.zero_add, ih]
      simp [lines, strip, hi]
    | false =>
      cases k with
      | zero => simp [nthInstr?, hi, lineOf]
      | succ k =>
        simp only [nthInstr?, hi, if_false, List.length_cons, hp, lineOf_cons_succ, ih,
          lines_cons hi, Bool.false_eq_true]
        omega

/-- A linked jump goes to the line of the position that the symbolic one goes to. -/
theorem lineDest_of_link {code linked : List Instr} (h : link code = .ok linked)
    {target target' : Target} (ht : target.link (labelTable code) = .ok target') :
    lineDest linked target' = lineOf code (positionOf code target) := by
  have hlen := length_of_link h
  cases target with
  | label name =>
    simp only [Target.link] at ht
    split at ht
    · rename_i line hn
      cases ht
      obtain ⟨pre, post, rfl, hpost, rfl⟩ := labelTable_eq_some_iff.mp hn
      have hle : lines pre ≤ linked.length := by simp [hlen]
      simp only [lineDest, positionOf, lastLabel?_append hpost, Option.getD_some, lineOf_append]
      split <;> omega
    · cases ht
  | line k =>
    cases ht
    simp only [lineDest, positionOf]
    by_cases hk : 0 ≤ k
    · rw [if_pos hk, lineOf_nthInstr?, hlen]
      split <;> omega
    · rw [if_neg hk, if_neg (by omega), lineOf_of_length_le (Nat.le_refl _), hlen]

/-! ## Runs of linked code -/

namespace Interp

variable {σ : Type u} (I : Interp σ)

theorem iterate_add (f : Config σ → Option (Config σ)) (m n : Nat) (c : Config σ) :
    iterate f (m + n) c = (iterate f m c).bind (iterate f n) := by
  induction m generalizing c with
  | zero => rw [Nat.zero_add]; rfl
  | succ m ih =>
    rw [Nat.succ_add, iterate, iterate, Option.bind_assoc]
    exact Option.bind_congr fun c' _ => ih c'

variable {I} {code linked : List Instr} {c c₁ c₂ : Config σ}

theorem runLinked_trans (h : I.runLinked linked m c = some c₁)
    (h' : I.runLinked linked n c₁ = some c₂) : I.runLinked linked (m + n) c = some c₂ := by
  rw [runLinked, iterate_add]
  exact Option.bind_eq_some_iff.mpr ⟨c₁, h, h'⟩

theorem runLinked_one : I.runLinked linked 1 c = I.stepLinked linked c := by
  rw [runLinked, iterate]
  cases I.stepLinked linked c <;> rfl

/-- A run that goes on for long has gone on for a while. -/
theorem exists_runLinked_of_le (h : I.runLinked linked n c = some c₁) (hm : m ≤ n) :
    ∃ c', I.runLinked linked m c = some c' := by
  obtain ⟨k, rfl⟩ := Nat.exists_eq_add_of_le hm
  rw [runLinked, iterate_add] at h
  obtain ⟨c', h, -⟩ := Option.bind_eq_some_iff.mp h
  exact ⟨c', h⟩

/-- A run that has stopped takes no more steps. -/
theorem le_of_stepLinked_eq_none (h : I.runLinked linked n c = some c₁)
    (hstop : I.stepLinked linked c₁ = none) (h' : I.runLinked linked m c = some c₂) : m ≤ n := by
  by_contra hlt
  obtain ⟨c', hc'⟩ := exists_runLinked_of_le h' (show n + 1 ≤ m by omega)
  rw [runLinked, iterate_add] at hc'
  obtain ⟨c₀, h₀, h₁⟩ := Option.bind_eq_some_iff.mp hc'
  cases h.symm.trans h₀
  rw [iterate, hstop] at h₁
  cases h₁

/-- A run stops in one way only. -/
theorem eq_of_stepLinked_eq_none (h : I.runLinked linked m c = some c₁)
    (hstop : I.stepLinked linked c₁ = none) (h' : I.runLinked linked n c = some c₂)
    (hstop' : I.stepLinked linked c₂ = none) : c₁ = c₂ := by
  have hmn : m = n := Nat.le_antisymm (le_of_stepLinked_eq_none h' hstop' h)
    (le_of_stepLinked_eq_none h hstop h')
  subst hmn
  exact Option.some.inj (h.symm.trans h')

/-- A step at an instruction that is no jump. -/
theorem stepLinked_of_exec (h : link code = .ok linked) {i : Instr}
    (hcode : code = pre ++ i :: post) (hi : i.isLabel = false) (hb : i.branch? = none)
    (hs : I.exec i s = some s') :
    I.stepLinked linked ⟨lines pre, s⟩ = some ⟨lines (pre ++ [i]), s'⟩ := by
  obtain ⟨j, hj, hat⟩ := getElem?_of_link h hcode hi
  obtain rfl := Instr.eq_of_link hj hb
  simp [stepLinked, step, hat, hb, hs, lines_cons hi]

/-- A step at a jump to a label. -/
theorem stepLinked_of_label (h : link code = .ok linked) {i : Instr}
    (hcode : code = pre ++ i :: post) (hb : i.branch? = some (.label name, g))
    (hlabel : code = pre' ++ .label name :: post') (hlast : name ∉ labelsOf post') (s : σ) :
    I.stepLinked linked ⟨lines pre, s⟩ =
      some ⟨if I.holds g s then lines pre' else lines (pre ++ [i]), s⟩ := by
  have hi : i.isLabel = false := by cases i <;> first | rfl | cases hb
  obtain ⟨j, hj, hat⟩ := getElem?_of_link h hcode hi
  obtain ⟨target, ht, hb'⟩ := Instr.branch?_of_link hj hb
  have hdest : lineDest linked target = lines pre' := by
    rw [lineDest_of_link h ht, hlabel, positionOf, lastLabel?_append hlast]
    exact lineOf_append pre' _
  simp [stepLinked, step, hat, hb', hdest, lines_cons hi]

end Interp

/-! ## Linking keeps machines in step -/

namespace Interp

variable {σ : Type u} (I : Interp σ)

/-- One step: the labels before an instruction do not count, so that symbolic and linked code
are at the same instruction, and what they make of it corresponds again. -/
theorem stepLinked_onLines {code linked : List Instr} (h : link code = .ok linked) (c : Config σ) :
    I.stepLinked linked (onLines code c) = (I.stepSymbolic code c).map (onLines code) := by
  have hline : (onLines code c).pos = lineOf code (skipLabels code c.pos) :=
    (lineOf_skipLabels code c.pos).symm
  cases hi : code[skipLabels code c.pos]? with
  | none =>
    -- Only labels are left, so the line is the end of the linked code.
    have hend : linked[(onLines code c).pos]? = none := by
      rw [hline, lineOf_of_length_le (List.getElem?_eq_none_iff.mp hi), ← length_of_link h]
      exact List.getElem?_eq_none_iff.mpr (Nat.le_refl _)
    simp [stepLinked, stepSymbolic, step, hi, hend]
  | some i =>
    have hn := isLabel_of_getElem?_skipLabels hi
    obtain ⟨j, hj, hat⟩ := getElem?_of_link h (eq_take_append_cons hi) hn
    have hat : linked[(onLines code c).pos]? = some j := by rw [hline]; exact hat
    have hsucc : lineOf code (skipLabels code c.pos + 1) = (onLines code c).pos + 1 := by
      rw [lineOf_succ hi, hline]
      simp [hn]
    cases hb : i.branch? with
    | none =>
      obtain rfl := Instr.eq_of_link hj hb
      have hs : (onLines code c).state = c.state := rfl
      simp only [stepLinked, stepSymbolic, step, hi, hat, hb, hs]
      cases I.exec j c.state <;> simp [onLines, hsucc]
    | some b =>
      obtain ⟨target, g⟩ := b
      obtain ⟨target', ht, hb'⟩ := Instr.branch?_of_link hj hb
      have hs : (onLines code c).state = c.state := rfl
      simp only [stepLinked, stepSymbolic, step, hi, hat, hb, hb', hs, Option.map_some,
        lineDest_of_link h ht]
      cases I.holds g c.state <;> simp [onLines, hsucc]

/-- Runs: by induction on the number of steps. -/
theorem runLinked_onLines {code linked : List Instr} (h : link code = .ok linked) (n : Nat)
    (c : Config σ) :
    I.runLinked linked n (onLines code c) = (I.runSymbolic code n c).map (onLines code) := by
  unfold runLinked runSymbolic
  induction n generalizing c with
  | zero => rfl
  | succ n ih =>
    rw [iterate, iterate, stepLinked_onLines I h]
    cases I.stepSymbolic code c with
    | none => rfl
    | some c' => exact ih c'

/-- Linking preserves execution. Passing a label keeps the line, the end of the code is the end
of the linked code, and after any number of steps, from any position and state, symbolic code
and linked code have both stopped, or are in the same state at corresponding positions. -/
theorem linked_in_step {code linked : List Instr} (h : link code = .ok linked) :
    (∀ p name, code[p]? = some (.label name) → lineOf code (p + 1) = lineOf code p) ∧
      (∀ p, code.length ≤ p → lineOf code p = linked.length) ∧
      ∀ n (c : Config σ),
        I.runLinked linked n (onLines code c) = (I.runSymbolic code n c).map (onLines code) := by
  refine ⟨?_, ?_, fun n c => I.runLinked_onLines h n c⟩
  · intro p name hp
    rw [lineOf_succ hp]
    rfl
  · intro p hp
    rw [lineOf_of_length_le hp, length_of_link h]

/-- Two definitions of one label, labels side by side and at the end, jumps by name and by
number. -/
theorem linked_in_step_mixed :
    let I : Interp Nat := ⟨fun _ s => some (s + 1), fun _ s => s % 2 == 0⟩
    let code : List Instr :=
      [.label "top", .label "again", .set "x" "1", .jump (.label "end") "equal" "x" "0",
        .label "top", .rawJump (.line 1) ["always"], .goto (.label "top"), .label "end"]
    let linked : List Instr :=
      [.set "x" "1", .jump (.line 4) "equal" "x" "0", .rawJump (.line 1) ["always"],
        .goto (.line 2)]
    link code = .ok linked ∧ lineOf code 8 = 4 ∧
      ∀ n c, I.runLinked linked n (onLines code c) = (I.runSymbolic code n c).map (onLines code) :=
  ⟨rfl, rfl, (linked_in_step _ rfl).2.2⟩

end Interp

end LogicAsm
