import Mathlib.Logic.Equiv.Basic
import LogicAsm.Proofs.LinkedForm

/-!
# Renamed labels

Labels only tie jumps to lines. If they are renamed one to one, the table has the same lines under
the new names (`getElem?_labelTable_rename`), and the code is linked to the same code. A jump that
cannot be linked is at fault as before, under its new name (`link_map_rename`).
-/

namespace LogicAsm

/-- The destination with its label renamed. -/
def Target.rename (f : String → String) : Target → Target
  | label name => .label (f name)
  | line number => .line number

/-- The instruction with its label renamed, be it defined or jumped to. -/
def Instr.rename (f : String → String) : Instr → Instr
  | label name => .label (f name)
  | i => i.mapTarget (Target.rename f)

/-- The fault with its label renamed. -/
def Fault.rename (f : String → String) : Fault → Fault
  | undefinedLabel name => .undefinedLabel (f name)
  | fault => fault

/-! ## Renamed code -/

namespace Instr

variable {f : String → String} {i : Instr}

theorem label?_rename (f : String → String) (i : Instr) :
    (i.rename f).label? = i.label?.map f := by
  cases i <;> rfl

theorem isLabel_rename (f : String → String) (i : Instr) : (i.rename f).isLabel = i.isLabel := by
  rw [isLabel, label?_rename, Option.isSome_map, isLabel]

theorem rename_of_isLabel_eq_false (h : i.isLabel = false) :
    i.rename f = i.mapTarget (.rename f) := by
  cases i with
  | label => cases h
  | _ => rfl

theorem rename_eq_label_iff {name : String} :
    i.rename f = .label name ↔ ∃ name', i = .label name' ∧ f name' = name := by
  rw [← label?_eq_some, label?_rename, Option.map_eq_some_iff]
  simp only [label?_eq_some]

end Instr

section Code

variable (f : String → String) (code : List Instr)

theorem labelsOf_map_rename : labelsOf (code.map (.rename f)) = (labelsOf code).map f := by
  rw [labelsOf, List.filterMap_map, labelsOf, List.map_filterMap]
  exact congrArg (code.filterMap ·) (funext (Instr.label?_rename f))

/-- Without its labels, renamed code differs in the destinations of its jumps only. -/
theorem strip_map_rename :
    strip (code.map (.rename f)) = (strip code).map (.mapTarget (.rename f)) := by
  have hlabel : (fun i : Instr => !i.isLabel) ∘ Instr.rename f = fun i => !i.isLabel := by
    funext i
    simp [Instr.isLabel_rename]
  rw [strip, List.filter_map, hlabel, strip]
  refine List.map_congr_left fun i hi => Instr.rename_of_isLabel_eq_false ?_
  simpa using (List.mem_filter.mp hi).2

theorem lines_map_rename : lines (code.map (.rename f)) = lines code := by
  rw [lines, strip_map_rename, List.length_map, lines]

end Code

/-! ## Renamed tables -/

section Injective

variable {f : String → String} (hf : Function.Injective f) (code : List Instr)
include hf

/-- Renamed code has the lines of its labels under the new names, and no others. -/
theorem getElem?_labelTable_rename {name : String} {line : Nat} :
    (labelTable (code.map (.rename f)))[name]? = some line ↔
      ∃ name', f name' = name ∧ (labelTable code)[name']? = some line := by
  simp only [labelTable_eq_some_iff]
  constructor
  · rintro ⟨_, _, hcode, hlast, rfl⟩
    obtain ⟨pre, rest, rfl, rfl, hrest⟩ := List.map_eq_append_iff.mp hcode
    obtain ⟨i, post, rfl, hi, rfl⟩ := List.map_eq_cons_iff.mp hrest
    obtain ⟨name', rfl, rfl⟩ := Instr.rename_eq_label_iff.mp hi
    rw [labelsOf_map_rename, List.mem_map_of_injective hf] at hlast
    exact ⟨name', rfl, pre, post, rfl, hlast, lines_map_rename f pre⟩
  · rintro ⟨name', rfl, pre, post, rfl, hlast, rfl⟩
    refine ⟨pre.map (.rename f), post.map (.rename f), List.map_append, ?_, ?_⟩
    · rwa [labelsOf_map_rename, List.mem_map_of_injective hf]
    · exact (lines_map_rename f pre).symm

theorem getElem?_labelTable_rename_self (name : String) :
    (labelTable (code.map (.rename f)))[f name]? = (labelTable code)[name]? := by
  refine Option.ext fun line => ?_
  rw [getElem?_labelTable_rename hf]
  constructor
  · rintro ⟨name', hname, h⟩
    rwa [← hf hname]
  · exact fun h => ⟨name, rfl, h⟩

/-! ## Renamed code is linked alike -/

theorem Target.link_rename (target : Target) :
    (target.rename f).link (labelTable (code.map (.rename f))) =
      (target.link (labelTable code)).mapError (.rename f) := by
  cases target with
  | line number => rfl
  | label name =>
    rw [rename, link, getElem?_labelTable_rename_self hf, link]
    cases (labelTable code)[name]? <;> rfl

theorem Instr.link_rename (i : Instr) :
    (i.mapTarget (.rename f)).link (labelTable (code.map (.rename f))) =
      (i.link (labelTable code)).mapError (.rename f) := by
  cases i with
  | jump target | rawJump target =>
    rw [mapTarget, link, Target.link_rename hf, link]
    cases target.link (labelTable code) <;> rfl
  | _ => rfl

end Injective

theorem link_map_rename {f : String → String} (hf : Function.Injective f) (code : List Instr) :
    link (code.map (.rename f)) = (link code).mapError (.rename f) := by
  rw [link, strip_map_rename, List.mapM_map, link, ← mapM_mapError]
  exact congrArg (strip code).mapM (funext (Instr.link_rename hf code))

/-- Code with its labels renamed one to one is linked if the code is, and to the same code. If it is
not, the label at fault is the renamed one. Up to then, the code without labels has only its
destinations renamed, and the table has the same lines under the new names. -/
theorem linking_invariant_under_renaming {f : String → String} (hf : Function.Injective f)
    (code : List Instr) :
    (match link code with
      | .ok linked => link (code.map (.rename f)) = .ok linked
      | .error fault => ∃ name, fault = .undefinedLabel name ∧
        link (code.map (.rename f)) = .error (.undefinedLabel (f name))) ∧
    strip (code.map (.rename f)) = (strip code).map (.mapTarget (.rename f)) ∧
    ∀ name line, (labelTable (code.map (.rename f)))[name]? = some line ↔
      ∃ name', f name' = name ∧ (labelTable code)[name']? = some line := by
  refine ⟨?_, strip_map_rename f code, fun _ _ => getElem?_labelTable_rename hf code⟩
  rw [link_map_rename hf]
  cases h : link code with
  | ok linked => rfl
  | error fault =>
    obtain ⟨_, _, name, _, _, rfl⟩ := exists_jump_of_link_eq_error h
    exact ⟨name, rfl, rfl⟩

/-- Two labels that are defined in turn, one of them twice, with a jump ahead and one back. -/
def crossing : List Instr :=
  [.label "a", .jump (.label "b") "equal" "x" "0", .label "b", .set "x" "1",
    .rawJump (.label "a") [], .label "a", .halt]

/-- The two labels may be exchanged, also if one has no definition. -/
theorem linking_invariant_under_renaming_crossing :
    Function.Injective (Equiv.swap "a" "b") ∧
      link (crossing.map (.rename (Equiv.swap "a" "b"))) =
        .ok [.jump (.line 1) "equal" "x" "0", .set "x" "1", .rawJump (.line 3) [], .halt] ∧
      link ((crossing.erase (.label "b")).map (.rename (Equiv.swap "a" "b"))) =
        .error (.undefinedLabel "a") := by
  have hf : Function.Injective (Equiv.swap "a" "b") := (Equiv.swap "a" "b").injective
  have hok : link crossing =
      .ok [.jump (.line 1) "equal" "x" "0", .set "x" "1", .rawJump (.line 3) [], .halt] := rfl
  have herror : link (crossing.erase (.label "b")) = .error (.undefinedLabel "b") := rfl
  have h := (linking_invariant_under_renaming hf crossing).1
  have h' := (linking_invariant_under_renaming hf (crossing.erase (.label "b"))).1
  rw [hok] at h
  rw [herror] at h'
  obtain ⟨_, ⟨⟩, h'⟩ := h'
  exact ⟨hf, h, h'⟩

end LogicAsm
