import Mathlib.Data.List.Nodup
import Std.Data.String.ToNat
import LogicAsm.Proofs.LabelTable
import LogicAsm.Proofs.Outline

/-!
# Labels and jumps of generated code

The labels that lowering makes up for control structures are numbered by one counter, so the
code that it emits itself defines each of them at most once, and the numbers lie between the
counters before and after (`Stmt.Lowers.freshLabels`). A jump that lowering emits goes to a label
that it has emitted as well, unless the program wrote it (`Stmt.Lowers.mem_labelsOf_of_target?`).
The copies of functions that stand for calls are left out of both statements.
-/

namespace LogicAsm

open Piece (flatten own)

/-! ## Statements inside statements -/

mutual

/-- A statement and the statements inside it. -/
def Stmt.within : Stmt → List Stmt
  | .block ss => .block ss :: Stmt.withinAll ss
  | .function f body => .function f body :: body.within
  | .ifThen cond body => .ifThen cond body :: body.within
  | .ifElse cond body body' => .ifElse cond body body' :: (body.within ++ body'.within)
  | .whileDo cond body => .whileDo cond body :: body.within
  | s => [s]

/-- Statements and the statements inside them. -/
def Stmt.withinAll : List Stmt → List Stmt
  | [] => []
  | s :: rest => s.within ++ Stmt.withinAll rest

/-- The statements inside a body. -/
def Body.within : Body → List Stmt
  | .block ss | .program ss => Stmt.withinAll ss
  | .foreign _ => []

end

theorem Body.within_of_statements? {body : Body} (hb : body.statements? = some ss) :
    body.within = Stmt.withinAll ss := by
  cases body with
  | block | program => cases hb; rw [Body.within]
  | foreign => cases hb

namespace Stmt

@[simp] theorem withinAll_nil : withinAll [] = [] := by rw [withinAll]

@[simp] theorem withinAll_cons (s : Stmt) (rest : List Stmt) :
    withinAll (s :: rest) = s.within ++ withinAll rest := by rw [withinAll]

theorem mem_within (s : Stmt) : s ∈ s.within := by
  cases s <;> simp [within]

/-- A property holds of all statements and of the statements inside them. -/
def Every (P : Stmt → Prop) (ss : List Stmt) : Prop := ∀ s ∈ withinAll ss, P s

section Every

variable {P : Stmt → Prop} {ss ss' : List Stmt} {body body' : Body}

theorem every_cons {s : Stmt} : Every P (s :: ss) ↔ Every P [s] ∧ Every P ss := by
  simp [Every, or_imp, forall_and]

theorem Every.head {s : Stmt} (h : Every P (s :: ss)) : P s :=
  h s (by simp [mem_within])

theorem every_block : Every P [.block ss] ↔ P (.block ss) ∧ Every P ss := by
  simp [Every, within]

theorem every_function (hb : body.statements? = some ss) :
    Every P [.function f body] ↔ P (.function f body) ∧ Every P ss := by
  simp [Every, within, Body.within_of_statements? hb]

theorem every_ifThen {cond : Expr} (hb : body.statements? = some ss) :
    Every P [.ifThen cond body] ↔ P (.ifThen cond body) ∧ Every P ss := by
  simp [Every, within, Body.within_of_statements? hb]

theorem every_ifElse {cond : Expr} (hb : body.statements? = some ss)
    (hb' : body'.statements? = some ss') :
    Every P [.ifElse cond body body'] ↔
      P (.ifElse cond body body') ∧ Every P ss ∧ Every P ss' := by
  simp [Every, within, Body.within_of_statements? hb, Body.within_of_statements? hb', or_imp,
    forall_and]

theorem every_whileDo {cond : Expr} (hb : body.statements? = some ss) :
    Every P [.whileDo cond body] ↔ P (.whileDo cond body) ∧ Every P ss := by
  simp [Every, within, Body.within_of_statements? hb]

end Every

/-- The expressions that a statement computes itself. -/
def exprs : Stmt → List Expr
  | .expr e => [e]
  | .print args => args
  | .ifThen cond _ | .ifElse cond _ _ | .whileDo cond _ => [cond]
  | _ => []

/-- The program writes a label: as a statement, or as a line of assembly. -/
def Defines (ss : List Stmt) (name : String) : Prop :=
  .label name ∈ withinAll ss ∨
    ∃ source, .asm source ∈ withinAll ss ∧ Instr.ofLine (between source) = .ok (.label name)

/-- The program writes a jump to a label: as a statement, or as a line of assembly. -/
def Targets (ss : List Stmt) (name : String) : Prop :=
  .goto name ∈ withinAll ss ∨
    ∃ source i, .asm source ∈ withinAll ss ∧ Instr.ofLine (between source) = .ok i ∧
      i.target? = some (.label name)

theorem Defines.mono {ss ss' : List Stmt} (h : withinAll ss ⊆ withinAll ss') :
    Defines ss name → Defines ss' name
  | .inl hl => .inl (h hl)
  | .inr ⟨source, ha, hi⟩ => .inr ⟨source, h ha, hi⟩

theorem Targets.mono {ss ss' : List Stmt} (h : withinAll ss ⊆ withinAll ss') :
    Targets ss name → Targets ss' name
  | .inl hl => .inl (h hl)
  | .inr ⟨source, i, ha, hi⟩ => .inr ⟨source, i, h ha, hi⟩

end Stmt

/-- The functions that an expression calls. -/
def Expr.calls : Expr → List String
  | call f => [f]
  | paren e | unary _ e | assign _ e | update _ _ e => e.calls
  | binary _ l r => l.calls ++ r.calls
  | literal _ | name _ | bare _ | sensor _ _ | foreign _ => []

/-! ## Instructions outside copies -/

/-- The instruction of a piece that is no copy. -/
def Piece.own? : Piece → Option Instr
  | own i => some i
  | copy _ _ => none

/-- The instructions outside copies. -/
def ownCode (ps : List Piece) : List Instr := ps.filterMap Piece.own?

@[simp] theorem ownCode_nil : ownCode [] = [] := rfl

@[simp] theorem ownCode_append (ps qs : List Piece) :
    ownCode (ps ++ qs) = ownCode ps ++ ownCode qs :=
  List.filterMap_append

@[simp] theorem ownCode_cons_own (i : Instr) (ps : List Piece) :
    ownCode (own i :: ps) = i :: ownCode ps := rfl

@[simp] theorem ownCode_cons_copy (f : String) (body ps : List Piece) :
    ownCode (.copy f body :: ps) = ownCode ps := rfl

@[simp] theorem ownCode_map_own (is : List Instr) : ownCode (is.map own) = is := by
  induction is with
  | nil => rfl
  | cons i is ih => rw [List.map_cons, ownCode_cons_own, ih]

theorem mem_ownCode {i : Instr} {ps : List Piece} : i ∈ ownCode ps ↔ own i ∈ ps := by
  simp only [ownCode, List.mem_filterMap]
  constructor
  · rintro ⟨p, hp, hi⟩
    cases p with
    | own => cases hi; exact hp
    | copy => cases hi
  · intro h
    exact ⟨own i, h, rfl⟩

/-- An instruction stands by itself or in a copy. -/
theorem mem_flatten {i : Instr} {ps : List Piece} :
    i ∈ flatten ps ↔ own i ∈ ps ∨ ∃ f body, .copy f body ∈ ps ∧ i ∈ flatten body := by
  induction ps with
  | nil => simp
  | cons p ps ih =>
    rw [Piece.flatten_cons, List.mem_append, ih]
    cases p with
    | own j => simp [or_assoc]
    | copy f body =>
      simp only [Piece.code_copy, List.mem_cons, reduceCtorEq, false_or, Piece.copy.injEq]
      constructor
      · rintro (h | h | ⟨f', body', hm, h⟩)
        · exact .inr ⟨f, body, .inl ⟨rfl, rfl⟩, h⟩
        · exact .inl h
        · exact .inr ⟨f', body', .inr hm, h⟩
      · rintro (h | ⟨f', body', ⟨rfl, rfl⟩ | hm, h⟩)
        · exact .inr (.inl h)
        · exact .inl h
        · exact .inr (.inr ⟨f', body', hm, h⟩)

/-- Without copies, the instructions outside copies are all there is. -/
theorem flatten_eq_ownCode {ps : List Piece} (h : ∀ p ∈ ps, ∃ i, p = own i) :
    flatten ps = ownCode ps := by
  induction ps with
  | nil => simp
  | cons p ps ih =>
    obtain ⟨i, rfl⟩ := h p List.mem_cons_self
    simp [ih fun q hq => h q (List.mem_cons_of_mem _ hq)]

/-! ## Code of expressions -/

/-- An instruction of the machine that is no jump. -/
def Instr.Plain : Instr → Prop
  | set .. | op .. | write .. | read .. | print .. | printFlush .. | draw .. | drawFlush ..
  | sensor .. | halt => True
  | jump .. | rawJump .. | label _ | raw _ | foreign _ => False

theorem Instr.Plain.label?_eq_none {i : Instr} (h : i.Plain) : i.label? = none := by
  cases i <;> first | rfl | exact h.elim

theorem Instr.Plain.target?_eq_none {i : Instr} (h : i.Plain) : i.target? = none := by
  cases i <;> first | rfl | exact h.elim

theorem UnaryOp.plain_instr (op : UnaryOp) (arg : String) : (op.instr arg).Plain := by
  cases op <;> trivial

theorem Dest.plain_settled (dest : Dest) : ∀ i ∈ ownCode dest.settled, i.Plain := by
  cases dest <;> simp [settled, Instr.Plain]

namespace Expr

/-- The code of an expression runs straight through, copies apart. -/
theorem Lowers.plain {e : Expr} (h : e.Lowers functions dest ps) : ∀ i ∈ ownCode ps, i.Plain := by
  have hop (m d l r : String) : (Instr.op m d l r).Plain := trivial
  have hpush : ∀ i ∈ pushCode Machine.acc, i.Plain := by simp [pushCode, Instr.Plain]
  have hpop : ∀ i ∈ popCode Machine.regB, i.Plain := by simp [popCode, Instr.Plain]
  induction h with
  | atom => simp [Instr.Plain]
  | call => simpa using Dest.plain_settled _
  | paren _ ih | assign _ ih =>
    simp only [ownCode_append, List.forall_mem_append]
    exact ⟨ih, Dest.plain_settled _⟩
  | unaryAtom =>
    simp only [ownCode_cons_own, List.forall_mem_cons]
    exact ⟨UnaryOp.plain_instr _ _, Dest.plain_settled _⟩
  | unary _ _ ih =>
    simp only [ownCode_append, ownCode_cons_own, List.forall_mem_append, List.forall_mem_cons]
    exact ⟨ih, UnaryOp.plain_instr _ _, Dest.plain_settled _⟩
  | binaryAtoms => simp [hop]
  | binaryRight _ _ _ ih | binaryLeft _ _ _ ih =>
    simp only [ownCode_append, ownCode_cons_own, ownCode_nil, List.forall_mem_append,
      List.forall_mem_singleton]
    exact ⟨ih, hop _ _ _ _⟩
  | binary _ _ _ _ ih ih' =>
    simp only [ownCode_append, ownCode_cons_own, ownCode_nil, ownCode_map_own,
      List.forall_mem_append, List.forall_mem_singleton]
    exact ⟨⟨⟨⟨ih, hpush⟩, ih'⟩, hpop⟩, hop _ _ _ _⟩
  | updateAtom =>
    simp only [ownCode_cons_own, List.forall_mem_cons]
    exact ⟨hop _ _ _ _, Dest.plain_settled _⟩
  | update _ _ ih =>
    simp only [ownCode_append, ownCode_cons_own, List.forall_mem_append, List.forall_mem_cons]
    exact ⟨ih, hop _ _ _ _, Dest.plain_settled _⟩
  | sensor =>
    simp only [ownCode_cons_own, List.forall_mem_cons]
    exact ⟨trivial, Dest.plain_settled _⟩

theorem LowersPrint.plain (h : LowersPrint functions args ps) : ∀ i ∈ ownCode ps, i.Plain := by
  induction h with
  | nil => simp
  | atom _ _ ih =>
    simp only [ownCode_cons_own, List.forall_mem_cons]
    exact ⟨trivial, ih⟩
  | computed _ h _ ih =>
    simp only [ownCode_append, ownCode_cons_own, List.forall_mem_append, List.forall_mem_cons]
    exact ⟨h.plain, trivial, ih⟩

end Expr

theorem labelsOf_eq_nil {code : List Instr} (h : ∀ i ∈ code, i.Plain) : labelsOf code = [] :=
  List.filterMap_eq_nil_iff.mpr fun i hi => (h i hi).label?_eq_none

theorem Instr.plain_of_ofDrawing {args : List Expr} {i : Instr} (h : Instr.ofDrawing args = .ok i) :
    i.Plain := by
  unfold Instr.ofDrawing at h
  cases ha : args.mapM Expr.drawText with
  | error fault => rw [ha] at h; cases h
  | ok texts =>
    rw [ha] at h
    cases texts with
    | nil => cases h
    | cons shape rest => cases h; trivial

/-! ## Made-up labels -/

/-- The labels of the control structure with a number. -/
def structLabels (id : Nat) : List String := [ifLabel id, contLabel id, whileLabel id]

theorem nodup_structLabels (id : Nat) : (structLabels id).Nodup := by
  simp [structLabels, ifLabel, contLabel, whileLabel, String.ext_iff]

theorem eq_of_append_toString {stem : String} {id id' : Nat}
    (h : stem ++ toString id = stem ++ toString id') : id = id' := by
  rw [String.ext_iff, String.toList_append, String.toList_append] at h
  exact Nat.repr_injective (String.ext (List.append_cancel_left h))

/-- A label tells the number of its control structure. -/
theorem eq_of_mem_structLabels {name : String} {id id' : Nat} (h : name ∈ structLabels id)
    (h' : name ∈ structLabels id') : id = id' := by
  simp only [structLabels, List.mem_cons, List.not_mem_nil, or_false] at h h'
  rcases h with rfl | rfl | rfl <;> rcases h' with h' | h' | h'
  case inl.inl | inr.inl.inr.inl | inr.inr.inr.inr => exact eq_of_append_toString h'
  -- The stems differ within their first two characters.
  all_goals simp [ifLabel, contLabel, whileLabel, String.ext_iff] at h'

/-- A label made up with a number from `lo` on and below `hi`. -/
def MadeUp (lo hi : Nat) (name : String) : Prop :=
  ∃ id, lo ≤ id ∧ id < hi ∧ name ∈ structLabels id

theorem MadeUp.mono {lo hi lo' hi' : Nat} (hlo : lo' ≤ lo) (hhi : hi ≤ hi') :
    MadeUp lo hi name → MadeUp lo' hi' name
  | ⟨id, h, h', hn⟩ => ⟨id, by omega, by omega, hn⟩

/-- The labels of code that was emitted while the counter went from `lo` to `hi`: but for those
that are written in the program, each is made up with a number of that range, and defined once. -/
structure FreshLabels (written : String → Prop) (lo hi : Nat) (labels : List String) : Prop where
  le : lo ≤ hi
  madeUp : ∀ name ∈ labels, written name ∨ MadeUp lo hi name
  count_le : ∀ name, ¬written name → labels.count name ≤ 1

namespace FreshLabels

variable {written : String → Prop} {labels labels' : List String}

theorem nil (h : lo ≤ hi) : FreshLabels written lo hi [] :=
  ⟨h, by simp, by simp⟩

theorem singleton (h : written name) : FreshLabels written lo lo [name] := by
  refine ⟨Nat.le_refl _, by simp [h], ?_⟩
  intro name' hn
  have hne : name ≠ name' := fun he => hn (he ▸ h)
  simp [hne]

theorem mono {written' : String → Prop} (h : FreshLabels written lo hi labels)
    (hw : ∀ name, written name → written' name) : FreshLabels written' lo hi labels :=
  ⟨h.le, fun name hn => (h.madeUp name hn).imp_left (hw name),
    fun name hn => h.count_le name (hn ∘ hw name)⟩

theorem perm (h : FreshLabels written lo hi labels) (hp : labels.Perm labels') :
    FreshLabels written lo hi labels' :=
  ⟨h.le, fun name hn => h.madeUp name (hp.mem_iff.mpr hn),
    fun name hn => hp.count_eq name ▸ h.count_le name hn⟩

/-- A label that was not made up in a range does not occur there. -/
theorem count_eq_zero (h : FreshLabels written lo hi labels) (hw : ¬written name)
    (hm : ¬MadeUp lo hi name) : labels.count name = 0 :=
  List.count_eq_zero.mpr fun hn => (h.madeUp name hn).elim hw hm

theorem append {mid : Nat} (h : FreshLabels written lo mid labels)
    (h' : FreshLabels written mid hi labels') : FreshLabels written lo hi (labels ++ labels') := by
  refine ⟨Nat.le_trans h.le h'.le, ?_, ?_⟩
  · intro name hn
    rcases List.mem_append.mp hn with hn | hn
    · exact (h.madeUp name hn).imp_right (.mono (Nat.le_refl _) h'.le)
    · exact (h'.madeUp name hn).imp_right (.mono h.le (Nat.le_refl _))
  · intro name hw
    have hc := h.count_le name hw
    have hc' := h'.count_le name hw
    rw [List.count_append]
    -- The ranges do not overlap, so the name is missing in one of the two lists.
    by_cases hm : MadeUp lo mid name
    · have hm' : ¬MadeUp mid hi name := by
        rintro ⟨id', hlo', -, hn'⟩
        obtain ⟨id, -, hhi, hn⟩ := hm
        have := eq_of_mem_structLabels hn hn'
        omega
      rw [h'.count_eq_zero hw hm']
      exact hc
    · rw [h.count_eq_zero hw hm, Nat.zero_add]
      exact hc'

/-- A control structure takes a number and adds labels of its own to those of its parts. -/
theorem enclose {id : Nat} (h : FreshLabels written (id + 1) hi labels) (mine : List String)
    (hmine : mine.Sublist (structLabels id)) : FreshLabels written id hi (mine ++ labels) := by
  have hnew : FreshLabels written id (id + 1) mine := by
    refine ⟨Nat.le_succ id, ?_, ?_⟩
    · intro name hn
      exact .inr ⟨id, Nat.le_refl _, Nat.lt_succ_self _, hmine.subset hn⟩
    · intro name _
      exact List.nodup_iff_count_le_one.mp ((nodup_structLabels id).sublist hmine) name
  exact hnew.append h

end FreshLabels

/-! ## Code of statements -/

namespace Stmt

/-- By induction on the outline: a control structure takes the number of the counter, and its
parts take greater ones. -/
theorem Lowers.freshLabels (h : Lowers c ss ps c') :
    FreshLabels (Defines ss) c.nextId c'.nextId (labelsOf (ownCode ps)) := by
  have hplain {code : List Instr} (hc : ∀ i ∈ code, i.Plain) {n : Nat} {ss : List Stmt} :
      FreshLabels (Defines ss) n n (labelsOf code) := by
    rw [labelsOf_eq_nil hc]
    exact .nil (Nat.le_refl n)
  induction h with
  | nil => exact .nil (Nat.le_refl _)
  | cons _ _ ih ih' =>
    rw [ownCode_append, labelsOf_append]
    refine (ih.mono ?_).append (ih'.mono ?_)
    · intro _
      exact Defines.mono (by simp)
    · intro _
      exact Defines.mono (by simp)
  | block _ ih => exact ih.mono fun _ => Defines.mono (by simp [within])
  | expr h => exact hplain h.plain
  | print h =>
    refine hplain ?_
    simp only [ownCode_append, ownCode_cons_own, ownCode_nil, List.forall_mem_append,
      List.forall_mem_singleton]
    exact ⟨h.plain, trivial⟩
  | draw h =>
    refine hplain ?_
    simpa using Instr.plain_of_ofDrawing h
  | drawFlush => exact hplain (by simp [Instr.Plain])
  | @asm source i c h =>
    cases hl : i.label? with
    | none =>
      rw [ownCode_cons_own, ownCode_nil, labelsOf_cons hl]
      exact .nil (Nat.le_refl _)
    | some name =>
      obtain rfl := Instr.label?_eq_some.mp hl
      exact .singleton (.inr ⟨source, by simp [within], h⟩)
  | function _ _ ih => exact .nil ih.le
  | @ifThen c c' cond body ss ps qs hc hb _ ih =>
    have hsub : withinAll ss ⊆ withinAll [.ifThen cond body] := by
      simp [within, Body.within_of_statements? hb]
    have h := (ih.mono fun _ => Defines.mono hsub).enclose [ifLabel c.nextId]
      (by simp [structLabels])
    refine h.perm ?_
    simpa [labelsOf_eq_nil hc.plain] using (List.perm_append_singleton _ _).symm
  | @ifElse c c₁ c₂ cond body body' ss ss' ps qs qs' hc hb hb' _ _ ih ih' =>
    have hsub : withinAll ss ⊆ withinAll [.ifElse cond body body'] := by
      simp [within, Body.within_of_statements? hb]
    have hsub' : withinAll ss' ⊆ withinAll [.ifElse cond body body'] := by
      simp [within, Body.within_of_statements? hb']
    have h := ((ih.mono fun _ => Defines.mono hsub).append
      (ih'.mono fun _ => Defines.mono hsub')).enclose
      [ifLabel c.nextId, contLabel c.nextId] (by simp [structLabels])
    refine h.perm ?_
    rw [List.perm_iff_count]
    intro name
    simp only [ownCode_append, ownCode_cons_own, ownCode_nil, labelsOf_append, labelsOf_cons_goto,
      labelsOf_cons_gotoUnless, labelsOf_cons_label, labelsOf_nil, labelsOf_eq_nil hc.plain,
      List.count_append, List.count_cons, List.count_nil]
    omega
  | @whileDo c c' cond body ss ps qs hc hb _ ih =>
    have hsub : withinAll ss ⊆ withinAll [.whileDo cond body] := by
      simp [within, Body.within_of_statements? hb]
    have h := (ih.mono fun _ => Defines.mono hsub).enclose
      [contLabel c.nextId, whileLabel c.nextId] (by simp [structLabels])
    refine h.perm ?_
    rw [List.perm_iff_count]
    intro name
    simp only [ownCode_append, ownCode_cons_own, ownCode_nil, labelsOf_append, labelsOf_cons_goto,
      labelsOf_cons_gotoUnless, labelsOf_cons_label, labelsOf_nil, labelsOf_eq_nil hc.plain,
      List.count_append, List.count_cons, List.count_nil]
    omega
  | label => exact .singleton (.inl (by simp [within]))
  | goto => exact .nil (Nat.le_refl _)

/-- A jump outside copies goes to a label outside copies, unless the program wrote it. -/
theorem Lowers.mem_labelsOf_of_target? (h : Lowers c ss ps c') {i : Instr} (hi : i ∈ ownCode ps)
    (ht : i.target? = some (.label name)) : name ∈ labelsOf (ownCode ps) ∨ Targets ss name := by
  have hplain {code : List Instr} (hc : ∀ i ∈ code, i.Plain) (hi : i ∈ code) : False := by
    rw [(hc i hi).target?_eq_none] at ht
    cases ht
  induction h with
  | nil => cases hi
  | cons _ _ ih ih' =>
    rw [ownCode_append, List.mem_append] at hi
    rw [ownCode_append, labelsOf_append, List.mem_append]
    rcases hi with hi | hi
    · exact (ih hi).imp .inl (Targets.mono (by simp))
    · exact (ih' hi).imp .inr (Targets.mono (by simp))
  | block _ ih => exact (ih hi).imp_right (Targets.mono (by simp [within]))
  | expr h => exact (hplain h.plain hi).elim
  | print h =>
    rw [ownCode_append, List.mem_append] at hi
    rcases hi with hi | hi
    · exact (hplain h.plain hi).elim
    · cases List.mem_singleton.mp hi
      cases ht
  | draw h =>
    cases List.mem_singleton.mp hi
    rw [(Instr.plain_of_ofDrawing h).target?_eq_none] at ht
    cases ht
  | drawFlush | label =>
    cases List.mem_singleton.mp hi
    cases ht
  | @asm source j c h =>
    cases List.mem_singleton.mp hi
    exact .inr (.inr ⟨source, i, by simp [within], h, ht⟩)
  | function => cases hi
  | @ifThen c c' cond body ss ps qs hc hb _ ih =>
    have hsub : withinAll ss ⊆ withinAll [.ifThen cond body] := by
      simp [within, Body.within_of_statements? hb]
    simp only [ownCode_append, ownCode_cons_own, ownCode_nil, List.mem_append, List.mem_cons,
      List.not_mem_nil, or_false] at hi
    rcases hi with (hi | rfl | hi) | rfl
    · exact (hplain hc.plain hi).elim
    · cases ht
      simp
    · refine (ih hi).imp ?_ (Targets.mono hsub)
      intro hn
      simp [hn]
    · cases ht
  | @ifElse c c₁ c₂ cond body body' ss ss' ps qs qs' hc hb hb' _ _ ih ih' =>
    have hsub : withinAll ss ⊆ withinAll [.ifElse cond body body'] := by
      simp [within, Body.within_of_statements? hb]
    have hsub' : withinAll ss' ⊆ withinAll [.ifElse cond body body'] := by
      simp [within, Body.within_of_statements? hb']
    simp only [ownCode_append, ownCode_cons_own, ownCode_nil, List.mem_append, List.mem_cons,
      List.not_mem_nil, or_false] at hi
    rcases hi with ((hi | rfl | hi) | rfl | rfl | hi) | rfl
    · exact (hplain hc.plain hi).elim
    · cases ht
      simp
    · refine (ih hi).imp ?_ (Targets.mono hsub)
      intro hn
      simp [hn]
    · cases ht
      simp
    · cases ht
    · refine (ih' hi).imp ?_ (Targets.mono hsub')
      intro hn
      simp [hn]
    · cases ht
  | @whileDo c c' cond body ss ps qs hc hb _ ih =>
    have hsub : withinAll ss ⊆ withinAll [.whileDo cond body] := by
      simp [within, Body.within_of_statements? hb]
    simp only [ownCode_append, ownCode_cons_own, ownCode_nil, List.mem_append, List.mem_cons,
      List.not_mem_nil, or_false] at hi
    rcases hi with ((rfl | hi) | rfl | hi) | rfl | rfl
    · cases ht
    · exact (hplain hc.plain hi).elim
    · cases ht
      simp
    · refine (ih hi).imp ?_ (Targets.mono hsub)
      intro hn
      simp [hn]
    · cases ht
      simp
    · cases ht
  | goto =>
    cases List.mem_singleton.mp hi
    cases ht
    exact .inr (.inl (by simp [within]))

end Stmt

/-! ## Copies -/

theorem Dest.not_copy_mem_settled (dest : Dest) : .copy f body ∉ dest.settled := by
  cases dest <;> simp [settled]

namespace Expr

/-- The copies in the code of an expression are of declared functions. -/
theorem Lowers.functions_of_copy {e : Expr} (h : e.Lowers functions dest ps)
    (hm : .copy f body ∈ ps) : functions f = some body := by
  have hmap (is : List Instr) : .copy f body ∉ is.map own := by simp
  induction h with
  | atom | binaryAtoms => simp at hm
  | @call g body dest hf =>
    rcases List.mem_cons.mp hm with hm | hm
    · cases hm
      exact hf
    · exact (Dest.not_copy_mem_settled _ hm).elim
  | paren _ ih | assign _ ih =>
    exact ih ((List.mem_append.mp hm).resolve_right (Dest.not_copy_mem_settled _))
  | unaryAtom | updateAtom | sensor =>
    simp only [List.mem_cons, reduceCtorEq, false_or] at hm
    exact (Dest.not_copy_mem_settled _ hm).elim
  | unary _ _ ih | update _ _ ih =>
    simp only [List.mem_append, List.mem_cons, reduceCtorEq, false_or] at hm
    exact ih (hm.resolve_right (Dest.not_copy_mem_settled _))
  | binaryRight _ _ _ ih | binaryLeft _ _ _ ih =>
    simp only [List.mem_append, List.mem_cons, reduceCtorEq, List.not_mem_nil, or_false] at hm
    exact ih hm
  | binary _ _ _ _ ih ih' =>
    simp only [List.mem_append, List.mem_cons, reduceCtorEq, List.not_mem_nil, or_false, hmap] at hm
    exact hm.elim ih ih'

theorem LowersPrint.functions_of_copy (h : LowersPrint functions args ps)
    (hm : .copy f body ∈ ps) : functions f = some body := by
  induction h with
  | nil => cases hm
  | atom _ _ ih =>
    simp only [List.mem_cons, reduceCtorEq, false_or] at hm
    exact ih hm
  | computed _ h _ ih =>
    simp only [List.mem_append, List.mem_cons, reduceCtorEq, false_or] at hm
    exact hm.elim h.functions_of_copy ih

end Expr

theorem Dest.own_settled (dest : Dest) : ∀ p ∈ dest.settled, ∃ i, p = own i := by
  cases dest <;> simp [settled]

theorem Expr.Lowers.own_of_calls {e : Expr} (h : e.Lowers functions dest ps) (hc : e.calls = []) :
    ∀ p ∈ ps, ∃ i, p = own i := by
  have hown (i : Instr) : ∃ j, own i = own j := ⟨i, rfl⟩
  have hmap (is : List Instr) : ∀ p ∈ is.map own, ∃ i, p = own i := by simp
  induction h with
  | atom | binaryAtoms => simp
  | call => cases hc
  | paren _ ih | assign _ ih =>
    rw [List.forall_mem_append]
    exact ⟨ih hc, Dest.own_settled _⟩
  | unaryAtom | updateAtom | sensor =>
    rw [List.forall_mem_cons]
    exact ⟨hown _, Dest.own_settled _⟩
  | unary _ _ ih | update _ _ ih =>
    rw [List.forall_mem_append, List.forall_mem_cons]
    exact ⟨ih hc, hown _, Dest.own_settled _⟩
  | binaryRight _ _ _ ih =>
    rw [List.forall_mem_append, List.forall_mem_singleton]
    exact ⟨ih (List.append_eq_nil_iff.mp hc).2, hown _⟩
  | binaryLeft _ _ _ ih =>
    rw [List.forall_mem_append, List.forall_mem_singleton]
    exact ⟨ih (List.append_eq_nil_iff.mp hc).1, hown _⟩
  | binary _ _ _ _ ih ih' =>
    obtain ⟨hl, hr⟩ := List.append_eq_nil_iff.mp hc
    simp only [List.forall_mem_append, List.forall_mem_singleton]
    exact ⟨⟨⟨⟨ih hl, hmap _⟩, ih' hr⟩, hmap _⟩, hown _⟩

theorem Expr.LowersPrint.own_of_calls (h : Expr.LowersPrint functions args ps)
    (hc : ∀ e ∈ args, e.calls = []) : ∀ p ∈ ps, ∃ i, p = own i := by
  induction h with
  | nil => simp
  | atom _ _ ih =>
    rw [List.forall_mem_cons] at hc ⊢
    exact ⟨⟨_, rfl⟩, ih hc.2⟩
  | computed _ h _ ih =>
    rw [List.forall_mem_cons] at hc
    rw [List.forall_mem_append, List.forall_mem_cons]
    exact ⟨h.own_of_calls hc.1, ⟨_, rfl⟩, ih hc.2⟩

/-- A statement that computes no call itself. -/
def Stmt.CallFree (s : Stmt) : Prop := ∀ e ∈ s.exprs, e.calls = []

/-- Without calls, there are no copies. -/
theorem Stmt.Lowers.own_of_callFree (h : Stmt.Lowers c ss ps c') (hc : Stmt.Every CallFree ss) :
    ∀ p ∈ ps, ∃ i, p = own i := by
  have hown (i : Instr) : ∃ j, own i = own j := ⟨i, rfl⟩
  induction h with
  | nil | function => simp
  | draw | drawFlush | asm | label | goto => simp
  | cons _ _ ih ih' =>
    obtain ⟨hs, hrest⟩ := every_cons.mp hc
    rw [List.forall_mem_append]
    exact ⟨ih hs, ih' hrest⟩
  | block _ ih => exact ih (every_block.mp hc).2
  | expr h => exact h.own_of_calls (hc.head _ (by simp [exprs]))
  | print h =>
    rw [List.forall_mem_append, List.forall_mem_singleton]
    exact ⟨h.own_of_calls hc.head, hown _⟩
  | ifThen h hb _ ih =>
    obtain ⟨hs, hbody⟩ := (every_ifThen hb).mp hc
    have hcond := h.own_of_calls (hs _ (by simp [exprs]))
    simp only [List.forall_mem_append, List.forall_mem_cons]
    exact ⟨⟨hcond, hown _, ih hbody⟩, hown _, by simp⟩
  | ifElse h hb hb' _ _ ih ih' =>
    obtain ⟨hs, hbody, hbody'⟩ := (every_ifElse hb hb').mp hc
    have hcond := h.own_of_calls (hs _ (by simp [exprs]))
    simp only [List.forall_mem_append, List.forall_mem_cons]
    exact ⟨⟨⟨hcond, hown _, ih hbody⟩, hown _, hown _, ih' hbody'⟩, hown _, by simp⟩
  | whileDo h hb _ ih =>
    obtain ⟨hs, hbody⟩ := (every_whileDo hb).mp hc
    have hcond := h.own_of_calls (hs _ (by simp [exprs]))
    simp only [List.forall_mem_append, List.forall_mem_cons]
    exact ⟨⟨⟨hown _, hcond⟩, hown _, ih hbody⟩, hown _, hown _, by simp⟩

/-! ## Numbers -/

/-- A statement that takes a number for its labels. -/
def Stmt.isStructure : Stmt → Bool
  | .ifThen .. | .ifElse .. | .whileDo .. => true
  | _ => false

/-- Each control structure takes one number, those in declared functions included. -/
theorem Stmt.Lowers.nextId_eq (h : Stmt.Lowers c ss ps c') :
    c'.nextId = c.nextId + (Stmt.withinAll ss).countP isStructure := by
  induction h with
  | nil | expr | print | draw | drawFlush | asm | label | goto =>
    simp [within, isStructure]
  | cons _ _ ih ih' =>
    rw [ih', ih]
    simp [Nat.add_assoc]
  | block _ ih =>
    rw [ih]
    simp [within, isStructure]
  | function hb _ ih =>
    rw [Scope.declare_nextId, ih]
    simp [within, isStructure, Body.within_of_statements? hb]
  | ifThen _ hb _ ih | whileDo _ hb _ ih =>
    rw [ih, Scope.next_nextId]
    simp [within, List.countP_cons, isStructure, Body.within_of_statements? hb, Nat.add_assoc,
      Nat.add_comm 1]
  | ifElse _ hb hb' _ _ ih ih' =>
    rw [ih', ih, Scope.next_nextId]
    simp only [withinAll_cons, withinAll_nil, within, List.append_nil, List.countP_cons,
      List.countP_append, isStructure, if_true, Body.within_of_statements? hb,
      Body.within_of_statements? hb']
    omega

end LogicAsm
