import LogicAsm.Proofs.LinkedForm

/-!
# Relocated code

The table of two codes in a row is the table of the second, with its lines moved behind the first,
over the table of the first (`getElem?_labelTable_append`). If the codes do not share labels, each
jump finds its label in its own part. So the parts can be linked one by one, and the destinations in
the second part moved in the end (`link_append`, `linking_composes`).
-/

namespace LogicAsm

/-- The destination further on by `offset` lines. A label stays as it is. -/
def Target.relocate (offset : Nat) : Target → Target
  | label name => .label name
  | line number => .line (number + offset)

/-- The code defines the label, or jumps to it. -/
def Mentions (code : List Instr) (name : String) : Prop :=
  .label name ∈ code ∨ ∃ i ∈ code, i.target? = some (.label name)

/-- Two codes with labels of their own: neither mentions a label that the other defines. -/
structure LabelsApart (code code' : List Instr) : Prop where
  left : ∀ name, .label name ∈ code → ¬Mentions code' name
  right : ∀ name, .label name ∈ code' → ¬Mentions code name

/-- No jump of the code goes to a line number. -/
def IsSymbolic (code : List Instr) : Prop :=
  ∀ i ∈ code, ∀ number, i.target? ≠ some (.line number)

/-! ## Tables of codes in a row -/

variable {code code' : List Instr}

/-- The second code decides about the labels that it defines, and its lines come behind those of
the first. -/
theorem getElem?_labelTable_append (code code' : List Instr) (name : String) :
    (labelTable (code ++ code'))[name]? =
      ((labelTable code')[name]?.map (lines code + ·)).or (labelTable code)[name]? := by
  by_cases h : name ∈ labelsOf code'
  · obtain ⟨pre, post, rfl, hlast⟩ := exists_last_label h
    rw [← List.append_assoc, getElem?_labelTable hlast, getElem?_labelTable hlast, lines_append]
    rfl
  · rw [labelTable_eq_none_iff.mpr h, labelTable, LabelTable.enter_append,
      LabelTable.getElem?_enter_of_not_mem h]
    rfl

namespace LabelsApart

variable (h : LabelsApart code code') {i : Instr} {name : String}
include h

theorem getElem?_left (hi : i ∈ code) (ht : i.target? = some (.label name)) :
    (labelTable (code ++ code'))[name]? = (labelTable code)[name]? := by
  have hnone : (labelTable code')[name]? = none := by
    rw [labelTable_eq_none_iff, mem_labelsOf]
    exact fun hdef => h.right name hdef (.inr ⟨i, hi, ht⟩)
  rw [getElem?_labelTable_append, hnone]
  rfl

theorem getElem?_right (hi : i ∈ code') (ht : i.target? = some (.label name)) :
    (labelTable (code ++ code'))[name]? = (labelTable code')[name]?.map (lines code + ·) := by
  have hnone : (labelTable code)[name]? = none := by
    rw [labelTable_eq_none_iff, mem_labelsOf]
    exact fun hdef => h.left name hdef (.inr ⟨i, hi, ht⟩)
  rw [getElem?_labelTable_append, hnone, Option.or_none]

end LabelsApart

/-! ## Links by two tables -/

section Tables

variable {table table' : LabelTable} {i : Instr}

/-- Only the label that an instruction jumps to is looked up. -/
theorem Instr.link_congr
    (h : ∀ name, i.target? = some (.label name) → table[name]? = table'[name]?) :
    i.link table = i.link table' := by
  have htarget (target : Target) (ht : i.target? = some target) :
      target.link table = target.link table' := by
    cases target with
    | line number => rfl
    | label name => rw [Target.link, h name ht, Target.link]
  cases i with
  | jump target | rawJump target => rw [link, htarget target rfl, link]
  | _ => rfl

/-- An instruction is linked to a line further on, if the line of its label is. -/
theorem Instr.link_relocate {offset : Nat} (hline : ∀ number, i.target? ≠ some (.line number))
    (h : ∀ name, i.target? = some (.label name) → table[name]? = table'[name]?.map (offset + ·)) :
    i.link table = (i.link table').map (.mapTarget (.relocate offset)) := by
  have htarget (target : Target) (ht : i.target? = some target) :
      target.link table = (target.link table').map (.relocate offset) := by
    cases target with
    | line number => exact (hline number ht).elim
    | label name =>
      rw [Target.link, h name ht, Target.link]
      cases table'[name]? with
      | none => rfl
      | some line => simp [Except.map, Target.relocate, Int.add_comm]
  cases i with
  | jump target | rawJump target =>
    rw [link, htarget target rfl, link]
    cases target.link table' <;> rfl
  | _ => rfl

end Tables

/-! ## Codes linked in a row -/

/-- Codes with labels of their own are linked one after the other, and the second is relocated. -/
theorem link_append (hapart : LabelsApart code code') (hsymbolic : IsSymbolic code') :
    link (code ++ code') = do
      let linked ← link code
      let linked' ← link code'
      return linked ++ linked'.map (.mapTarget (.relocate (lines code))) := by
  have hleft : (strip code).mapM (Instr.link (labelTable (code ++ code'))) = link code := by
    refine mapM_congr (List.forall₂_same.mpr fun i hi => Instr.link_congr fun name => ?_)
    exact hapart.getElem?_left (mem_strip.mp hi).1
  have hright : (strip code').mapM (Instr.link (labelTable (code ++ code'))) =
      (link code').map (List.map (.mapTarget (.relocate (lines code)))) := by
    rw [link, ← mapM_map_ok]
    refine mapM_congr (List.forall₂_same.mpr fun i hi => Instr.link_relocate ?_ fun name => ?_)
    · exact hsymbolic i (mem_strip.mp hi).1
    · exact hapart.getElem?_right (mem_strip.mp hi).1
  rw [link, strip_append, List.mapM_append, hleft, hright]
  cases link code with
  | error fault => rfl
  | ok linked => cases link code' <;> rfl

/-- Linking two codes in a row that do not share labels, the second without numbers. It succeeds
just if both can be linked by themselves. Then the first stands as it is linked by itself, and all
jumps of the second go further by the number of lines of the first. If it fails, the fault is that
of the first code, or that of the second if the first has none. -/
theorem linking_composes (hapart : LabelsApart code code') (hsymbolic : IsSymbolic code') :
    ((∃ linked, link (code ++ code') = .ok linked) ↔
      (∃ linked, link code = .ok linked) ∧ ∃ linked, link code' = .ok linked) ∧
    (∀ linked linked', link code = .ok linked → link code' = .ok linked' →
      link (code ++ code') = .ok (linked ++ linked'.map (.mapTarget (.relocate (lines code))))) ∧
    ∀ fault, link (code ++ code') = .error fault ↔
      link code = .error fault ∨ (∃ linked, link code = .ok linked) ∧ link code' = .error fault := by
  rw [link_append hapart hsymbolic]
  cases hcode : link code with
  | error fault => simp [bind, Except.bind]
  | ok linked => cases hcode' : link code' <;> simp [bind, Except.bind, pure, Except.pure]

/-- A loop that is left for its end, with a jump to a number. -/
def leftLoop : List Instr :=
  [.label "top", .jump (.label "done") "equal" "x" "0", .rawJump (.line 7) ["y"],
    .goto (.label "top"), .label "done"]

/-- Code that jumps over an instruction to its end. -/
def skipOver : List Instr :=
  [.label "begin", .rawJump (.label "over") [], .set "x" "1", .label "over"]

/-- The loop is left for line 3, where the code behind it begins. Without their last labels both
codes have a fault, and the first one counts. -/
theorem linking_composes_leftLoop :
    LabelsApart leftLoop skipOver ∧ IsSymbolic skipOver ∧
      link (leftLoop ++ skipOver) =
        .ok [.jump (.line 3) "equal" "x" "0", .rawJump (.line 7) ["y"], .goto (.line 0),
          .rawJump (.line 5) [], .set "x" "1"] ∧
      link (leftLoop ++ skipOver.dropLast) = .error (.undefinedLabel "over") ∧
      link (leftLoop.dropLast ++ skipOver.dropLast) = .error (.undefinedLabel "done") := by
  have hloop : link leftLoop = .ok [.jump (.line 3) "equal" "x" "0", .rawJump (.line 7) ["y"],
      .goto (.line 0)] := rfl
  have hapart : LabelsApart leftLoop skipOver := by
    constructor <;> simp [leftLoop, skipOver, Mentions, Instr.target?, Instr.goto]
  have hsymbolic : IsSymbolic skipOver := by
    simp [IsSymbolic, skipOver, Instr.target?]
  have hapartOver : LabelsApart leftLoop skipOver.dropLast := by
    constructor <;> simp [leftLoop, skipOver, Mentions, Instr.target?, Instr.goto]
  have hapartBoth : LabelsApart leftLoop.dropLast skipOver.dropLast := by
    constructor <;> simp [leftLoop, skipOver, Mentions, Instr.target?, Instr.goto]
  have hsymbolicOver : IsSymbolic skipOver.dropLast := by
    simp [IsSymbolic, skipOver, Instr.target?]
  exact ⟨hapart, hsymbolic, (linking_composes hapart hsymbolic).2.1 _ _ hloop rfl,
    ((linking_composes hapartOver hsymbolicOver).2.2 _).mpr (.inr ⟨⟨_, hloop⟩, rfl⟩),
    ((linking_composes hapartBoth hsymbolicOver).2.2 _).mpr (.inl rfl)⟩

end LogicAsm
