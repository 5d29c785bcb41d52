import LogicAsm.Linking
import LogicAsm.Proofs.Traversal

/-!
# Label tables and linked code

The table of a code knows a name just if the code defines it, and gives the line of the last
definition (`labelTable_eq_some_iff`, `labelTable_eq_none_iff`). Linked code is the code without
its labels, instruction by instruction (`link_eq_ok_iff`), so that an instruction stands on the
line that counts the instructions before it (`getElem?_of_link`).
-/

namespace LogicAsm

/-! ## Code without labels -/

theorem strip_cons {i : Instr} (hi : i.isLabel = false) (code : List Instr) :
    strip (i :: code) = i :: strip code := by
  simp [strip, hi]

/-- The number of lines that a code takes, once its labels are gone. -/
def lines (code : List Instr) : Nat := (strip code).length

@[simp] theorem lines_nil : lines [] = 0 := rfl

@[simp] theorem lines_append (code code' : List Instr) :
    lines (code ++ code') = lines code + lines code' := by
  simp [lines]

@[simp] theorem lines_cons_label (name : String) (code : List Instr) :
    lines (.label name :: code) = lines code := rfl

theorem lines_cons {i : Instr} (hi : i.isLabel = false) (code : List Instr) :
    lines (i :: code) = lines code + 1 := by
  simp [lines, strip_cons hi]

@[simp] theorem lines_cons_goto (target : Target) (code : List Instr) :
    lines (.goto target :: code) = lines code + 1 := lines_cons rfl code

@[simp] theorem lines_cons_gotoUnless (target : Target) (code : List Instr) :
    lines (.gotoUnless target :: code) = lines code + 1 := lines_cons rfl code

/-! ## Defined names -/

/-- The names that a code defines, in order. -/
def labelsOf (code : List Instr) : List String := code.filterMap Instr.label?

@[simp] theorem labelsOf_nil : labelsOf [] = [] := rfl

@[simp] theorem labelsOf_append (code code' : List Instr) :
    labelsOf (code ++ code') = labelsOf code ++ labelsOf code' := List.filterMap_append

@[simp] theorem labelsOf_cons_label (name : String) (code : List Instr) :
    labelsOf (.label name :: code) = name :: labelsOf code := rfl

theorem labelsOf_cons {i : Instr} (hi : i.label? = none) (code : List Instr) :
    labelsOf (i :: code) = labelsOf code := List.filterMap_cons_none hi

@[simp] theorem labelsOf_cons_goto (target : Target) (code : List Instr) :
    labelsOf (.goto target :: code) = labelsOf code := rfl

@[simp] theorem labelsOf_cons_gotoUnless (target : Target) (code : List Instr) :
    labelsOf (.gotoUnless target :: code) = labelsOf code := rfl

theorem mem_labelsOf {name : String} {code : List Instr} :
    name ∈ labelsOf code ↔ .label name ∈ code := by
  simp [labelsOf, Instr.label?_eq_some]

/-- A name that is defined has a last definition. -/
theorem exists_last_label {name : String} {code : List Instr} (h : name ∈ labelsOf code) :
    ∃ pre post, code = pre ++ .label name :: post ∧ name ∉ labelsOf post := by
  induction code with
  | nil => simp at h
  | cons i code ih =>
    by_cases hc : name ∈ labelsOf code
    · obtain ⟨pre, post, rfl, hn⟩ := ih hc
      exact ⟨i :: pre, post, rfl, hn⟩
    · rcases List.mem_cons.mp (mem_labelsOf.mp h) with rfl | hi
      · exact ⟨[], code, rfl, hc⟩
      · exact (hc (mem_labelsOf.mpr hi)).elim

/-! ## Lookup -/

namespace LabelTable

theorem getElem?_enter_of_not_mem {name : String} {code : List Instr} (h : name ∉ labelsOf code)
    (table : LabelTable) (line : Nat) : (table.enter line code)[name]? = table[name]? := by
  induction code generalizing table line with
  | nil => rfl
  | cons i code ih =>
    rw [enter]
    split
    · rename_i name' hi
      obtain rfl := Instr.label?_eq_some.mp hi
      simp only [labelsOf_cons_label, List.mem_cons, not_or] at h
      rw [ih h.2, Std.TreeMap.getElem?_insert, if_neg (by simpa using Ne.symm h.1)]
    · rename_i hi
      rw [labelsOf_cons hi] at h
      exact ih h ..

end LabelTable

/-- The last definition of a name gives its line. -/
theorem getElem?_labelTable {name : String} {pre post : List Instr} (h : name ∉ labelsOf post) :
    (labelTable (pre ++ .label name :: post))[name]? = some (lines pre) := by
  rw [labelTable, LabelTable.enter_append, LabelTable.enter]
  simp only [Instr.label?_label, Nat.zero_add]
  rw [LabelTable.getElem?_enter_of_not_mem h, Std.TreeMap.getElem?_insert_self, lines]

theorem labelTable_eq_none_iff {name : String} {code : List Instr} :
    (labelTable code)[name]? = none ↔ name ∉ labelsOf code := by
  constructor
  · intro h hc
    obtain ⟨pre, post, rfl, hn⟩ := exists_last_label hc
    rw [getElem?_labelTable hn] at h
    cases h
  · intro h
    rw [labelTable, LabelTable.getElem?_enter_of_not_mem h]
    simp

theorem labelTable_eq_some_iff {name : String} {code : List Instr} {line : Nat} :
    (labelTable code)[name]? = some line ↔
      ∃ pre post, code = pre ++ .label name :: post ∧ name ∉ labelsOf post ∧
        line = lines pre := by
  constructor
  · intro h
    have hc : name ∈ labelsOf code := by
      by_contra hc
      rw [labelTable_eq_none_iff.mpr hc] at h
      cases h
    obtain ⟨pre, post, rfl, hn⟩ := exists_last_label hc
    rw [getElem?_labelTable hn] at h
    exact ⟨pre, post, rfl, hn, (Option.some.inj h).symm⟩
  · rintro ⟨pre, post, rfl, hn, rfl⟩
    exact getElem?_labelTable hn

/-! ## Linked code -/

theorem link_eq_ok_iff {code linked : List Instr} :
    link code = .ok linked ↔
      List.Forall₂ (fun i j => i.link (labelTable code) = .ok j) (strip code) linked :=
  mapM_eq_ok_iff

/-- Linked instructions come from instructions of the code. -/
theorem exists_of_mem_link {code linked : List Instr} (h : link code = .ok linked) {j : Instr}
    (hj : j ∈ linked) : ∃ i ∈ code, i.link (labelTable code) = .ok j := by
  obtain ⟨i, hi, hij⟩ := exists_of_forall₂ (link_eq_ok_iff.mp h) hj
  exact ⟨i, (mem_strip.mp hi).1, hij⟩

/-- Code can be linked if it defines all labels that it jumps to. -/
theorem exists_link_eq_ok {code : List Instr}
    (h : ∀ i ∈ code, ∀ name, i.target? = some (.label name) → name ∈ labelsOf code) :
    ∃ linked, link code = .ok linked := by
  have htarget (target : Target) (ht : ∀ name, target = .label name → name ∈ labelsOf code) :
      ∃ target', target.link (labelTable code) = .ok target' := by
    cases target with
    | line number => exact ⟨_, rfl⟩
    | label name =>
      obtain ⟨pre, post, rfl, hn⟩ := exists_last_label (ht name rfl)
      rw [Target.link, getElem?_labelTable hn]
      exact ⟨_, rfl⟩
  refine exists_mapM_eq_ok ?_
  intro i hi
  have hi := h i (mem_strip.mp hi).1
  cases i with
  | jump target | rawJump target =>
    obtain ⟨target', ht⟩ := htarget target fun name hn => hi name (by rw [hn]; rfl)
    rw [Instr.link, ht]
    exact ⟨_, rfl⟩
  | _ => exact ⟨_, rfl⟩

/-- Linking a jump links its destination. -/
theorem Instr.target?_of_link {table : LabelTable} {i j : Instr} (h : i.link table = .ok j)
    {target : Target} (hi : i.target? = some target) :
    ∃ target', target.link table = .ok target' ∧ j.target? = some target' := by
  cases i with
  | jump | rawJump =>
    cases hi
    rw [Instr.link] at h
    cases ht : target.link table with
    | error fault =>
      rw [ht] at h
      cases h
    | ok target' =>
      rw [ht] at h
      cases h
      exact ⟨target', rfl, rfl⟩
  | _ => cases hi

theorem Instr.link_eq_error_iff {table : LabelTable} {i : Instr} {fault : Fault} :
    i.link table = .error fault ↔
      ∃ name, i.target? = some (.label name) ∧ table[name]? = none ∧
        fault = .undefinedLabel name := by
  have htarget (target : Target) : target.link table = .error fault ↔
      ∃ name, target = .label name ∧ table[name]? = none ∧ fault = .undefinedLabel name := by
    cases target with
    | line number => simp [Target.link]
    | label name =>
      rw [Target.link]
      split
      · rename_i line hl
        constructor
        · rintro ⟨⟩
        · rintro ⟨_, ⟨⟩, hn, -⟩
          rw [hl] at hn
          cases hn
      · rename_i hn
        constructor
        · rintro ⟨⟩
          exact ⟨name, rfl, hn, rfl⟩
        · rintro ⟨_, ⟨⟩, -, rfl⟩
          rfl
  cases i with
  | jump target | rawJump target =>
    rw [link, target?]
    simp only [Option.some.injEq, ← htarget]
    cases target.link table <;> simp [Except.map]
  | _ => simp [link, target?]

/-- Only a jump to a label that the code does not define keeps it from being linked. -/
theorem exists_jump_of_link_eq_error {code : List Instr} {fault : Fault}
    (h : link code = .error fault) :
    ∃ i ∈ code, ∃ name, i.target? = some (.label name) ∧ name ∉ labelsOf code ∧
      fault = .undefinedLabel name := by
  obtain ⟨pre, i, post, hs, -, hi⟩ := mapM_eq_error_iff.mp h
  obtain ⟨name, ht, hn, rfl⟩ := Instr.link_eq_error_iff.mp hi
  have hmem : i ∈ strip code := by simp [hs]
  exact ⟨i, (mem_strip.mp hmem).1, name, ht, labelTable_eq_none_iff.mp hn, rfl⟩

theorem length_of_link {code linked : List Instr} (h : link code = .ok linked) :
    linked.length = lines code :=
  (link_eq_ok_iff.mp h).length_eq.symm

/-- An instruction stands on the line that counts the instructions before it, with its
destination linked. -/
theorem getElem?_of_link {code linked pre post : List Instr} {i : Instr}
    (h : link code = .ok linked) (hcode : code = pre ++ i :: post) (hi : i.isLabel = false) :
    ∃ j, i.link (labelTable code) = .ok j ∧ linked[lines pre]? = some j := by
  have hl := link_eq_ok_iff.mp h
  have hs : strip code = strip pre ++ i :: strip post := by
    rw [hcode, strip_append, strip_cons hi]
  have hn : (strip pre).length < (strip code).length := by simp [hs]
  have hm : (strip pre).length < linked.length := by rwa [← hl.length_eq]
  have hj := hl.get hn hm
  simp only [List.get_eq_getElem, hs, List.getElem_append_right (Nat.le_refl _), Nat.sub_self,
    List.getElem_cons_zero] at hj
  exact ⟨_, hj, List.getElem?_eq_getElem hm⟩

/-! ## Changed instructions -/

section Map

variable {f : Instr → Instr} (hlabel : ∀ i, (f i).label? = i.label?)
include hlabel

theorem strip_map (code : List Instr) : strip (code.map f) = (strip code).map f := by
  have hcomp : (fun i : Instr => !i.isLabel) ∘ f = fun i => !i.isLabel := by
    funext i
    simp [Instr.isLabel, hlabel]
  rw [strip, List.filter_map, hcomp, strip]

theorem LabelTable.enter_map (table : LabelTable) (line : Nat) (code : List Instr) :
    table.enter line (code.map f) = table.enter line code := by
  induction code generalizing table line with
  | nil => rfl
  | cons i code ih =>
    simp only [List.map_cons, enter, hlabel]
    split
    · exact ih _ _
    · exact ih _ _

/-- Linking has the same outcome if instructions are changed in what it does not look at. -/
theorem link_map (hlink : ∀ table i, (f i).link table = (i.link table).map f) (code : List Instr) :
    link (code.map f) = (link code).map (List.map f) := by
  rw [link, strip_map hlabel, labelTable, LabelTable.enter_map hlabel, List.mapM_map, link,
    ← mapM_map_ok]
  exact congrArg (strip code).mapM (funext (hlink _))

end Map

end LogicAsm
