import LogicAsm.Listing
import LogicAsm.Proofs.Execution
import LogicAsm.Proofs.TextLinking

/-!
# The form of linked code

Linking is described without a table: each destination is resolved by the last definition of its
label, and the first jump to a label without a definition is at fault (`link_determined`). Linked
code has no labels and no symbolic jumps, and code of this form is linked already, so that linking
changes nothing the second time, neither for code nor for its lines (`linked_stays_linked`).
-/

namespace LogicAsm

/-! ## Resolved destinations -/

/-- The destination with its label resolved: the line of the last definition. -/
def Target.resolve (code : List Instr) : Target → Target
  | label name => .line (lineOf code (positionOf code (.label name)))
  | line number => .line number

/-- An instruction with its destination changed, if it has one. -/
def Instr.mapTarget (f : Target → Target) : Instr → Instr
  | jump target cond left right => .jump (f target) cond left right
  | rawJump target operands => .rawJump (f target) operands
  | i => i

/-- The instruction jumps to a label that the code does not define. -/
def Instr.Strays (code : List Instr) (i : Instr) (name : String) : Prop :=
  i.target? = some (.label name) ∧ .label name ∉ code

namespace Target

variable {code : List Instr}

theorem resolve_of_last {pre post : List Instr} {name : String} (h : name ∉ labelsOf post) :
    (label name).resolve (pre ++ .label name :: post) = .line (lines pre) := by
  rw [resolve, positionOf, lastLabel?_append h, Option.getD_some, lineOf_append]

theorem link_labelTable {target : Target} (h : ∀ name, target = label name → .label name ∈ code) :
    target.link (labelTable code) = .ok (target.resolve code) := by
  cases target with
  | line number => rfl
  | label name =>
    obtain ⟨pre, post, rfl, hlast⟩ := exists_last_label (mem_labelsOf.mpr (h name rfl))
    rw [link, getElem?_labelTable hlast, resolve_of_last hlast]

end Target

namespace Instr

variable {code : List Instr} {i : Instr}

@[simp] theorem isLabel_mapTarget (f : Target → Target) (i : Instr) :
    (i.mapTarget f).isLabel = i.isLabel := by
  cases i <;> rfl

@[simp] theorem target?_mapTarget (f : Target → Target) (i : Instr) :
    (i.mapTarget f).target? = i.target?.map f := by
  cases i <;> rfl

theorem mapTarget_eq_self {f : Target → Target} (h : ∀ target ∈ i.target?, f target = target) :
    i.mapTarget f = i := by
  cases i with
  | jump target | rawJump target => rw [mapTarget, h target rfl]
  | _ => rfl

theorem link_of_not_strays (h : ∀ name, ¬i.Strays code name) :
    i.link (labelTable code) = .ok (i.mapTarget (Target.resolve code)) := by
  have hdefined : ∀ name, i.target? = some (.label name) → .label name ∈ code :=
    fun name ht => not_not.mp fun hn => h name ⟨ht, hn⟩
  cases i with
  | jump target | rawJump target =>
    have ht := Target.link_labelTable fun name hn => hdefined name (congrArg some hn)
    rw [link, ht]
    rfl
  | _ => rfl

theorem link_labelTable_eq_error_iff {fault : Fault} :
    i.link (labelTable code) = .error fault ↔
      ∃ name, i.Strays code name ∧ fault = .undefinedLabel name := by
  simp only [link_eq_error_iff, labelTable_eq_none_iff, mem_labelsOf, Strays, and_assoc]

theorem Strays.isLabel_eq {name : String} (h : i.Strays code name) : i.isLabel = false := by
  cases i with
  | label => cases h.1
  | _ => rfl

end Instr

/-! ## Linking without a table -/

variable {code linked : List Instr}

/-- Code that defines all its labels is linked by resolving its destinations. -/
theorem link_of_not_strays (h : ∀ i ∈ code, ∀ name, ¬i.Strays code name) :
    link code = .ok ((strip code).map (.mapTarget (.resolve code))) := by
  rw [link, mapM_eq_ok_iff, List.forall₂_map_right_iff, List.forall₂_same]
  exact fun i hi => Instr.link_of_not_strays (h i (mem_strip.mp hi).1)

/-- The first stray jump is at fault. -/
theorem link_eq_error_iff {fault : Fault} :
    link code = .error fault ↔
      ∃ pre i post name, code = pre ++ i :: post ∧ i.Strays code name ∧
        (∀ j ∈ pre, ∀ name', ¬j.Strays code name') ∧ fault = .undefinedLabel name := by
  constructor
  · intro h
    obtain ⟨before, i, after, hstrip, hbefore, hi⟩ := mapM_eq_error_iff.mp h
    obtain ⟨name, hstray, hfault⟩ := Instr.link_labelTable_eq_error_iff.mp hi
    obtain ⟨pre, rest, hcode, rfl, hrest⟩ := List.filter_eq_append_iff.mp hstrip
    obtain ⟨labels, post, rfl, hlabels, -, -⟩ := List.filter_eq_cons_iff.mp hrest
    refine ⟨pre ++ labels, i, post, name, by rw [hcode, List.append_assoc], hstray, ?_, hfault⟩
    -- No label strays, and the other instructions up to here have been linked.
    intro j hj name' hstray'
    rcases List.mem_append.mp hj with hj | hj
    · obtain ⟨j', hlink⟩ := hbefore j (mem_strip.mpr ⟨hj, hstray'.isLabel_eq⟩)
      rw [Instr.link_labelTable_eq_error_iff.mpr ⟨name', hstray', rfl⟩] at hlink
      cases hlink
    · exact hlabels j hj (by rw [hstray'.isLabel_eq]; rfl)
  · rintro ⟨pre, i, post, name, hcode, hstray, hpre, rfl⟩
    refine mapM_eq_error_iff.mpr ⟨strip pre, i, strip post, ?_, ?_, ?_⟩
    · conv_lhs => rw [hcode]
      rw [strip_append, strip_cons hstray.isLabel_eq]
    · intro j hj
      exact ⟨_, Instr.link_of_not_strays (hpre j (mem_strip.mp hj).1)⟩
    · exact Instr.link_labelTable_eq_error_iff.mpr ⟨name, hstray, rfl⟩

/-- Only a stray jump keeps code from being linked. -/
theorem link_eq_ok_iff_resolve :
    link code = .ok linked ↔
      (∀ i ∈ code, ∀ name, ¬i.Strays code name) ∧
        linked = (strip code).map (.mapTarget (.resolve code)) := by
  constructor
  · intro h
    have hstray : ∀ i ∈ code, ∀ name, ¬i.Strays code name := by
      intro i hi name hstray
      obtain ⟨pre, post, hcode⟩ := List.append_of_mem hi
      obtain ⟨j, hlink, -⟩ := getElem?_of_link h hcode hstray.isLabel_eq
      rw [Instr.link_labelTable_eq_error_iff.mpr ⟨name, hstray, rfl⟩] at hlink
      cases hlink
    refine ⟨hstray, ?_⟩
    rw [link_of_not_strays hstray] at h
    exact (Except.ok.inj h).symm
  · rintro ⟨hstray, rfl⟩
    exact link_of_not_strays hstray

/-! ## Linked code -/

/-- Code without labels, and without jumps to labels. -/
def IsLinked (code : List Instr) : Prop :=
  ∀ i ∈ code, i.isLabel = false ∧ ∀ name, i.target? ≠ some (.label name)

theorem isLinked_of_link (h : link code = .ok linked) : IsLinked linked := by
  obtain ⟨-, rfl⟩ := link_eq_ok_iff_resolve.mp h
  rw [IsLinked, List.forall_mem_map]
  intro i hi
  refine ⟨?_, ?_⟩
  · rw [Instr.isLabel_mapTarget]
    exact (mem_strip.mp hi).2
  · intro name
    rw [Instr.target?_mapTarget]
    rcases i.target? with _ | _ | _ <;> simp [Target.resolve]

/-- Linked code is linked as it is. -/
theorem IsLinked.link_eq (h : IsLinked code) : link code = .ok code := by
  refine link_eq_ok_iff_resolve.mpr ⟨fun i hi name hstray => (h i hi).2 name hstray.1, ?_⟩
  have hstrip : strip code = code := by
    rw [strip, List.filter_eq_self]
    intro i hi
    rw [(h i hi).1]
    rfl
  have hmap : code.map (.mapTarget (.resolve code)) = code := by
    refine (List.map_congr_left ?_).trans code.map_id
    intro i hi
    refine Instr.mapTarget_eq_self ?_
    rintro (name | number) ht
    · exact ((h i hi).2 name ht).elim
    · rfl
  rw [hstrip, hmap]

theorem lines_add_countP (code : List Instr) :
    lines code + code.countP Instr.isLabel = code.length := by
  have h := List.length_eq_countP_add_countP Instr.isLabel (l := code)
  rw [lines, strip, ← List.countP_eq_length_filter, h, Nat.add_comm]
  simp

theorem lineOf_le (code : List Instr) (p : Nat) : lineOf code p ≤ lines code := by
  have h : lines (code.take p) + lines (code.drop p) = lines code := by
    rw [← lines_append, List.take_append_drop]
  rw [lineOf]
  omega

/-- What linking does to any code. It fails just if a jump goes to a label that the code does not
define, and the first such jump is at fault. Otherwise labels are left out, and each jump to a label
goes to the number of instructions before the last definition of the label, which is a line of the
linked code or its end; nothing else changes. -/
theorem link_determined (code : List Instr) :
    (∀ fault, link code = .error fault ↔
      ∃ pre i post name, code = pre ++ i :: post ∧ i.Strays code name ∧
        (∀ j ∈ pre, ∀ name', ¬j.Strays code name') ∧ fault = .undefinedLabel name ∧
        fault.diagnostic? =
          some ⟨"undefined-label", "invalid jump to label '" ++ name ++ "'", some name⟩) ∧
    (∀ linked, link code = .ok linked ↔
      (∀ i ∈ code, ∀ name, ¬i.Strays code name) ∧
        linked = (code.filter (!·.isLabel)).map (.mapTarget (.resolve code))) ∧
    (∀ pre name post, code = pre ++ .label name :: post → .label name ∉ post →
      (Target.label name).resolve code = .line (pre.countP (!·.isLabel))) ∧
    ∀ linked, link code = .ok linked →
      IsLinked linked ∧ linked.length + code.countP Instr.isLabel = code.length ∧
        ∀ name, ∃ number : Nat, (Target.label name).resolve code = .line number ∧
          number ≤ linked.length := by
  refine ⟨?_, fun linked => link_eq_ok_iff_resolve, ?_, ?_⟩
  · intro fault
    rw [link_eq_error_iff]
    constructor
    · rintro ⟨pre, i, post, name, hcode, hstray, hpre, rfl⟩
      exact ⟨pre, i, post, name, hcode, hstray, hpre, rfl, rfl⟩
    · rintro ⟨pre, i, post, name, hcode, hstray, hpre, hfault, -⟩
      exact ⟨pre, i, post, name, hcode, hstray, hpre, hfault⟩
  · rintro pre name post rfl hlast
    rw [Target.resolve_of_last (mt mem_labelsOf.mp hlast), lines, strip,
      List.countP_eq_length_filter]
  · intro linked h
    rw [length_of_link h]
    refine ⟨isLinked_of_link h, lines_add_countP code, ?_⟩
    intro name
    exact ⟨_, rfl, lineOf_le code _⟩

/-- A label with two definitions, one at the end, and jumps of both forms. -/
def twiceDefined : List Instr :=
  [.label "a", .jump (.label "b") "equal" "x" "0", .rawJump (.line (-3)) ["\"q"], .label "b",
    .set "x" "1", .rawJump (.label "a") [], .label "a"]

/-- The labels of `twiceDefined` stand for the lines 2 and 4, and without its last definition of
`"b"` the first jump is at fault. -/
theorem link_determined_twiceDefined :
    link twiceDefined =
        .ok [.jump (.line 2) "equal" "x" "0", .rawJump (.line (-3)) ["\"q"], .set "x" "1",
          .rawJump (.line 4) []] ∧
      link (twiceDefined.erase (.label "b")) = .error (.undefinedLabel "b") := by
  refine ⟨((link_determined twiceDefined).2.1 _).mpr ⟨?_, by rfl⟩,
    ((link_determined (twiceDefined.erase (.label "b"))).1 _).mpr
      ⟨[.label "a"], _, _, "b", rfl, ⟨rfl, by decide⟩, ?_, rfl, rfl⟩⟩
  · simp [twiceDefined, Instr.Strays, Instr.target?]
  · simp [Instr.Strays, Instr.target?]

/-! ## Linked lines -/

/-- A label stands for a number that can be read, unless the code is too long for that. -/
theorem Target.Legible.link {target target' : Target} (h : target.Legible)
    (hlink : target.link (labelTable code) = .ok target') (hlen : code.length < 10 ^ maxDigits) :
    target'.Legible := by
  cases h with
  | line n hn =>
    cases hlink
    exact .line n hn
  | @label name =>
    rw [Target.link] at hlink
    split at hlink
    · rename_i number hnumber
      cases hlink
      refine .line number ?_
      obtain ⟨pre, post, rfl, -, rfl⟩ := labelTable_eq_some_iff.mp hnumber
      have hle := lines_add_countP pre
      rw [Nat.toString_eq_repr]
      refine (Nat.length_repr_le_iff (by decide)).mpr (Nat.lt_of_le_of_lt ?_ hlen)
      rw [List.length_append]
      omega
    · cases hlink

/-- What is read from lines and linked can be read again. -/
theorem legible_of_linkLines {lines : List String} (hcode : lines.mapM Instr.ofLine = .ok code)
    (hlink : link code = .ok linked) (hlines : lines.length < 10 ^ maxDigits) :
    ∀ j ∈ linked, j.Legible := by
  have hlen : code.length < 10 ^ maxDigits := by
    rwa [← (mapM_eq_ok_iff.mp hcode).length_eq]
  intro j hj
  obtain ⟨i, hi, hij⟩ := exists_of_mem_link hlink hj
  obtain ⟨s, -, hs⟩ := exists_of_forall₂ (mapM_eq_ok_iff.mp hcode) hi
  obtain rfl | ⟨name, hname, rfl⟩ | ⟨target, operands, ht, hoperands, rfl⟩ := Instr.ofLine_cases hs
  · cases hij
    exact .raw hs
  · cases hij
    exact .label hname
  · obtain ⟨target', htarget, rfl⟩ := Instr.exists_of_link_jumpWith hij
    exact Instr.legible_jumpWith (ht.link htarget hlen) hoperands

theorem linkLines_eq_ok_iff {lines out : List String} :
    linkLines lines = .ok out ↔
      ∃ code, lines.mapM Instr.ofLine = .ok code ∧ ∃ linked, link code = .ok linked ∧
        Instr.toLines linked = .ok out := by
  simp only [linkLines, bind_eq_ok_iff]

/-- Linking is idempotent. For lines, a number that takes the place of a label has to be short enough
to be read. It is at most the number of lines, and no listing that fits in memory has
`10 ^ maxDigits` of them. -/
theorem linked_stays_linked :
    (∀ code linked, link code = .ok linked → link linked = .ok linked) ∧
      ∀ lines out, lines.length < 10 ^ maxDigits → linkLines lines = .ok out →
        linkLines out = .ok out := by
  refine ⟨fun code linked h => (isLinked_of_link h).link_eq, ?_⟩
  intro lines out hlines hout
  obtain ⟨code, hcode, linked, hlink, hprint⟩ := linkLines_eq_ok_iff.mp hout
  have hagain := linkLines_of_legible (legible_of_linkLines hcode hlink hlines)
  rw [(isLinked_of_link hlink).link_eq, hprint] at hagain
  exact hagain.trans hprint

/-- A listing with a number that has leading zeros, a string beside a field, and a string that is
not closed and runs over a line break. -/
def unevenLines : List String :=
  ["label top  \"", " jump 007 x", "\tprint \"jump top\"", "jump top\"q w\"e", "jump top \"a\n "]

theorem linked_stays_linked_unevenLines :
    linkLines unevenLines =
        .ok ["jump 7 x", "\tprint \"jump top\"", "jump 0 \"q w\" e", "jump 0 \"a\n "] ∧
      linkLines ["jump 7 x", "\tprint \"jump top\"", "jump 0 \"q w\" e", "jump 0 \"a\n "] =
        .ok ["jump 7 x", "\tprint \"jump top\"", "jump 0 \"q w\" e", "jump 0 \"a\n "] := by
  have hlines : linkLines unevenLines =
      .ok ["jump 7 x", "\tprint \"jump top\"", "jump 0 \"q w\" e", "jump 0 \"a\n "] := by
    decide +kernel
  have hlength : unevenLines.length < 10 ^ maxDigits := by decide +kernel
  exact ⟨hlines, linked_stays_linked.2 unevenLines _ hlength hlines⟩

end LogicAsm
