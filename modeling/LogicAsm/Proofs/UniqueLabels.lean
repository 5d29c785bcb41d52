import Mathlib.Data.List.Flatten
import Mathlib.Data.List.Perm.Subperm
import LogicAsm.Proofs.Numbers

/-!
# Made-up labels are unique

Among the labels in the buffer and in the functions of a generator, each made-up one is defined
once, and its number was handed out (`Generator.Tidy`). Lowering keeps that, also if it fails
half-way, as long as no copies of functions are made and the program writes no label that begins
like a made-up one (`Stmt.keepsTidy`).
-/

namespace LogicAsm

open Gen

/-! ## Reserved names -/

/-- What made-up labels begin with. -/
def stems : List String := [".ifLbl", ".contLbl", ".whileLbl"]

/-- A name that begins like a made-up label. -/
def Reserved (name : String) : Prop := ∃ stem ∈ stems, stem.toList <+: name.toList

theorem reserved_of_mem_structLabels {name : String} {id : Nat} (h : name ∈ structLabels id) :
    Reserved name := by
  have hstem (stem : String) (hs : stem ∈ stems) : Reserved (stem ++ toString id) :=
    ⟨stem, hs, by rw [String.toList_append]; exact List.prefix_append _ _⟩
  simp only [structLabels, List.mem_cons, List.not_mem_nil, or_false] at h
  rcases h with rfl | rfl | rfl
  · exact hstem ".ifLbl" (by simp [stems])
  · exact hstem ".contLbl" (by simp [stems])
  · exact hstem ".whileLbl" (by simp [stems])

/-! ## Labels of a generator -/

/-- The labels that are defined in the code of functions. -/
def FunctionTable.labels (functions : FunctionTable) : List String :=
  functions.toList.flatMap fun entry => labelsOf entry.2

@[simp] theorem FunctionTable.labels_empty : FunctionTable.labels ∅ = [] := rfl

/-- A function that is replaced takes its labels along. -/
theorem FunctionTable.count_labels_insert (functions : FunctionTable) (f : String)
    (code : List Instr) (name : String) :
    (FunctionTable.labels (functions.insert f code)).count name ≤
      (labelsOf code).count name + functions.labels.count name := by
  have hp : (FunctionTable.labels (functions.insert f code)).Perm _ :=
    (Std.TreeMap.toList_insert_perm (t := functions) (k := f) (v := code)).flatMap_right _
  rw [hp.count_eq, List.flatMap_cons, List.count_append]
  refine Nat.add_le_add_left ?_ _
  exact (List.filter_sublist.flatMap _).count_le name

/-- The labels that are defined in the buffer and in the functions. -/
def Generator.labels (g : Generator) : List String := labelsOf g.code ++ g.functions.labels

namespace FreshLabels

variable {written : String → Prop} {labels labels' : List String}

/-- Labels may be dropped, and numbers passed over. -/
theorem of_count_le (h : FreshLabels written lo hi labels) (hhi : hi ≤ hi')
    (hle : ∀ name, labels'.count name ≤ labels.count name) :
    FreshLabels written lo hi' labels' := by
  refine ⟨Nat.le_trans h.le hhi, ?_, fun name hw => Nat.le_trans (hle name) (h.count_le name hw)⟩
  intro name hn
  have hmem : name ∈ labels :=
    List.count_pos_iff.mp (Nat.lt_of_lt_of_le (List.count_pos_iff.mpr hn) (hle name))
  exact (h.madeUp name hmem).imp_right (.mono (Nat.le_refl _) hhi)

theorem of_written (hw : ∀ name ∈ labels, written name) : FreshLabels written lo lo labels := by
  refine ⟨Nat.le_refl _, fun name hn => .inl (hw name hn), ?_⟩
  intro name hn
  rw [List.count_eq_zero.mpr fun hm => hn (hw name hm)]
  exact Nat.zero_le 1

end FreshLabels

/-- The made-up labels among some names and the labels of the generator are there once, with
numbers that were handed out. The names are labels that stand elsewhere or are still to come. -/
def Generator.Tidy (names : List String) (g : Generator) : Prop :=
  FreshLabels (¬Reserved ·) 0 g.nextId (names ++ g.labels)

namespace Generator.Tidy

variable {g : Generator} {names names' : List String}

theorem forget (h : g.Tidy names') (hs : names.Sublist names') : g.Tidy names := by
  refine FreshLabels.of_count_le h (Nat.le_refl _) fun name => ?_
  rw [List.count_append, List.count_append]
  exact Nat.add_le_add_right (hs.count_le name) _

theorem append (h : g.Tidy names) (hw : ∀ name ∈ labelsOf code, ¬Reserved name) :
    Tidy names { g with code := g.code ++ code } := by
  refine (FreshLabels.append h (.of_written hw)).of_count_le (Nat.le_refl _) fun name => ?_
  simp only [Generator.labels, labelsOf_append, List.count_append]
  omega

/-- A control structure gets a number, and reserves its labels. -/
theorem fresh (h : g.Tidy names) (mine : List String) (hm : mine.Subperm (structLabels g.nextId)) :
    Tidy (mine ++ names) { g with nextId := g.nextId + 1 } := by
  have hnone : FreshLabels (¬Reserved ·) (g.nextId + 1) (g.nextId + 1) [] := .nil (Nat.le_refl _)
  have hnew := hnone.enclose (structLabels g.nextId) (List.Sublist.refl _)
  refine (FreshLabels.append h hnew).of_count_le (Nat.le_refl _) fun name => ?_
  have hle := hm.count_le name
  simp only [Generator.labels, List.count_append]
  omega

/-- A label that was to come is defined. -/
theorem define (h : g.Tidy (name :: names)) :
    Tidy names { g with code := g.code ++ [.label name] } := by
  refine FreshLabels.of_count_le h (Nat.le_refl _) fun name' => ?_
  simp only [Generator.labels, labelsOf_append, labelsOf_cons_label, labelsOf_nil,
    List.cons_append, List.count_append, List.count_cons, List.count_nil]
  omega

/-- The buffer is set aside. -/
theorem setAside (h : g.Tidy names) :
    Tidy (labelsOf g.code ++ names) { g with code := [] } := by
  refine FreshLabels.of_count_le h (Nat.le_refl _) fun name => ?_
  simp only [Generator.labels, labelsOf_nil, List.count_append, List.count_nil]
  omega

/-- The buffer is put back, and what was emitted meanwhile is dropped. -/
theorem putBack {code : List Instr} (h : g.Tidy (labelsOf code ++ names)) :
    Tidy names { g with code := code } := by
  refine FreshLabels.of_count_le h (Nat.le_refl _) fun name => ?_
  simp only [Generator.labels, List.count_append]
  omega

/-- The buffer is put back, and what was emitted meanwhile becomes a function. -/
theorem declare {code : List Instr} (h : g.Tidy (labelsOf code ++ names)) (f : String) :
    Tidy names { g with code := code, functions := g.functions.insert f g.code } := by
  refine FreshLabels.of_count_le h (Nat.le_refl _) fun name => ?_
  have hle := g.functions.count_labels_insert f g.code name
  simp only [Generator.labels, List.count_append]
  omega

end Generator.Tidy

open Generator (Tidy)

/-! ## Actions that keep labels unique -/

namespace Gen

/-- From a state with `P` the action comes to one with `Q`, or fails in one with `E`. -/
def Leads (P : Generator → Prop) (act : Gen α) (Q : α → Generator → Prop)
    (E : Generator → Prop) : Prop :=
  ∀ g, P g →
    match act.run g with
    | .ok a g' => Q a g'
    | .error _ g' => E g'

theorem Leads.bind {P : Generator → Prop} {x : Gen α} {Q : α → Generator → Prop}
    {E : Generator → Prop} {f : α → Gen β} {R : β → Generator → Prop} (hx : Leads P x Q E)
    (hf : ∀ a, Leads (Q a) (f a) R E) : Leads P (x >>= f) R E := by
  intro g hg
  have h := hx g hg
  rw [EStateM.run_bind]
  cases hr : x.run g with
  | ok a g₁ =>
    rw [hr] at h
    exact hf a g₁ h
  | error fault g₁ =>
    rw [hr] at h
    exact h

theorem leads_freshId {E : Generator → Prop} (names : List String) (mine : Nat → List String)
    (hm : ∀ id, (mine id).Subperm (structLabels id)) :
    Leads (Tidy names) freshId (fun id => Tidy (mine id ++ names)) E :=
  fun _ h => h.fresh _ (hm _)

theorem leads_emit_label {E : Generator → Prop} (name : String) (names : List String) :
    Leads (Tidy (name :: names)) (emit (.label name)) (fun _ => Tidy names) E :=
  fun _ h => h.define

/-- The action keeps made-up labels unique, whatever other names there are. -/
def KeepsTidy (act : Gen α) : Prop :=
  ∀ names, Leads (Tidy names) act (fun _ => Tidy names) (Tidy names)

namespace KeepsTidy

theorem of_appends {act : Gen α} (h : Appends (¬Reserved ·) act) : KeepsTidy act := by
  intro names g hg
  obtain ⟨code, hcode, hafter⟩ := h g
  have hg' := hg.append hcode
  rw [← hafter, after] at hg'
  cases hr : act.run g <;> rw [hr] at hg' <;> exact hg'

theorem bind {x : Gen α} {f : α → Gen β} (hx : KeepsTidy x) (hf : ∀ a, KeepsTidy (f a)) :
    KeepsTidy (x >>= f) :=
  fun names => (hx names).bind fun a => hf a names

/-- If the action fails, labels that were to come are given up. -/
theorem leads {act : Gen α} (h : KeepsTidy act) {names names' : List String}
    (hs : names.Sublist names') :
    Leads (Tidy names') act (fun _ => Tidy names') (Tidy names) := by
  intro g hg
  have hg' := h names' g hg
  cases hr : act.run g with
  | ok a g₁ => rwa [hr] at hg'
  | error fault g₁ =>
    rw [hr] at hg'
    exact hg'.forget hs

/-- While a function is made, the labels of the buffer stand elsewhere. -/
theorem declare {act : Gen Unit} (h : KeepsTidy act) (f : String) :
    KeepsTidy (detached act >>= declare f) := by
  intro names g hg
  have hg' := h _ _ hg.setAside
  rw [EStateM.run_bind, run_detached]
  cases hr : act.run { g with code := [] } with
  | ok a g₁ =>
    rw [hr] at hg'
    exact hg'.declare f
  | error fault g₁ =>
    rw [hr] at hg'
    exact hg'.putBack

end KeepsTidy

end Gen

/-! ## Statements -/

/-- Statements that compute no calls, and write no label that begins like a made-up one. -/
structure Harmless (inside : List Stmt) : Prop where
  callFree : ∀ s ∈ inside, s.CallFree
  label : ∀ name, .label name ∈ inside → ¬Reserved name
  asm : ∀ source name, .asm source ∈ inside → Instr.ofLine (between source) = .ok (.label name) →
    ¬Reserved name

theorem Harmless.mono {inside inside' : List Stmt} (h : Harmless inside) (hs : inside' ⊆ inside) :
    Harmless inside' :=
  ⟨fun s hm => h.callFree s (hs hm), fun name hm => h.label name (hs hm),
    fun source name hm => h.asm source name (hs hm)⟩

theorem Stmt.keepsTidy_simple {s : Stmt} (hs : s.isSimple) (h : Harmless s.within) :
    KeepsTidy s.lower := by
  refine .of_appends (appends_lower hs (.inl (h.callFree s s.mem_within)) ?_)
  rintro name (hl | ⟨source, ha, hi⟩)
  · exact h.label name (by simpa using hl)
  · exact h.asm source name (by simpa using ha) hi

mutual

/-- Lowering a statement keeps made-up labels unique. -/
theorem Stmt.keepsTidy (s : Stmt) (h : Harmless s.within) : KeepsTidy s.lower := by
  have hexpr {e : Expr} (he : e ∈ s.exprs) : KeepsTidy e.lower :=
    .of_appends (e.appends_lowerTo .acc (.inl (h.callFree s s.mem_within e he)))
  have hgoto (name : String) : KeepsTidy (emit (.goto (.label name))) :=
    .of_appends (appends_emitAll (by simp))
  have htest (name : String) : KeepsTidy (emit (.gotoUnless (.label name))) :=
    .of_appends (appends_emitAll (by simp))
  match s with
  | .block ss =>
    rw [Stmt.lower]
    exact Stmt.keepsTidy_all ss (h.mono (by simp [Stmt.within]))
  | .function f body =>
    rw [Stmt.lower]
    exact (Body.keepsTidy body (h.mono (by simp [Stmt.within]))).declare f
  | .ifThen cond body =>
    have hbody := Body.keepsTidy body (h.mono (by simp [Stmt.within]))
    rw [Stmt.lower]
    intro names
    refine (hexpr (by simp [Stmt.exprs]) names).bind fun _ => ?_
    refine (leads_freshId names (fun id => [ifLabel id]) ?_).bind fun id => ?_
    · intro id
      exact List.Sublist.subperm (by simp [structLabels])
    · have hsub : names.Sublist (ifLabel id :: names) := List.sublist_cons_self _ _
      refine ((htest _).leads hsub).bind fun _ => (hbody.leads hsub).bind fun _ => ?_
      exact leads_emit_label _ _
  | .ifElse cond body body' =>
    have hbody := Body.keepsTidy body (h.mono (by simp [Stmt.within]))
    have hbody' := Body.keepsTidy body' (h.mono (by simp [Stmt.within]))
    rw [Stmt.lower]
    intro names
    refine (hexpr (by simp [Stmt.exprs]) names).bind fun _ => ?_
    refine (leads_freshId names (fun id => [ifLabel id, contLabel id]) ?_).bind fun id => ?_
    · intro id
      exact List.Sublist.subperm (by simp [structLabels])
    · have hsub : names.Sublist (contLabel id :: names) := List.sublist_cons_self _ _
      have hsub' : names.Sublist (ifLabel id :: contLabel id :: names) := hsub.cons _
      refine ((htest _).leads hsub').bind fun _ => (hbody.leads hsub').bind fun _ => ?_
      refine ((hgoto _).leads hsub').bind fun _ => (leads_emit_label _ _).bind fun _ => ?_
      exact (hbody'.leads hsub).bind fun _ => leads_emit_label _ _
  | .whileDo cond body =>
    have hbody := Body.keepsTidy body (h.mono (by simp [Stmt.within]))
    rw [Stmt.lower]
    intro names
    -- The label of the test is defined at once, the one behind the loop in the end.
    refine (leads_freshId names (fun id => [whileLabel id, contLabel id]) ?_).bind fun id => ?_
    · intro id
      exact (List.Perm.swap _ _ _).subperm.trans (List.sublist_cons_self _ _).subperm
    · have hsub : names.Sublist (contLabel id :: names) := List.sublist_cons_self _ _
      refine (leads_emit_label _ _).bind fun _ => ?_
      refine ((hexpr (by simp [Stmt.exprs])).leads hsub).bind fun _ => ?_
      refine ((htest _).leads hsub).bind fun _ => (hbody.leads hsub).bind fun _ => ?_
      exact ((hgoto _).leads hsub).bind fun _ => leads_emit_label _ _
  | .expr _ | .print _ | .draw _ | .drawFlush | .asm _ | .label _ | .goto _ | .foreign _ =>
    exact Stmt.keepsTidy_simple rfl h

theorem Stmt.keepsTidy_all (ss : List Stmt) (h : Harmless (Stmt.withinAll ss)) :
    KeepsTidy (Stmt.lowerAll ss) := by
  match ss with
  | [] =>
    rw [Stmt.lowerAll]
    exact .of_appends (appends_pure ())
  | s :: rest =>
    rw [Stmt.lowerAll]
    have hs := Stmt.keepsTidy s (h.mono (by simp))
    exact hs.bind fun _ => Stmt.keepsTidy_all rest (h.mono (by simp))

theorem Body.keepsTidy (body : Body) (h : Harmless body.within) : KeepsTidy body.lower := by
  match body with
  | .block ss | .program ss =>
    rw [Body.within] at h
    rw [Body.lower]
    exact Stmt.keepsTidy_all ss h
  | .foreign kind =>
    rw [Body.lower]
    exact .of_appends (appends_throw _)

end

end LogicAsm
