import LogicAsm.Proofs.Checking
import LogicAsm.Proofs.Dangling
import LogicAsm.Proofs.UniqueLabels

/-!
# Control structures with other numbers

The number at which a generator starts to count shows only in the names of made-up labels, and
linking gets rid of names. Two codes of a program that count from different numbers are the same
line by line, but for names that are renamed one to one (`RenamedLabel.eq_iff`,
`Stmt.correspondence_renumbered`). Such codes are linked alike, as long as a jump that cannot be
linked has a name that is not renamed (`link_eq_of_renumbered`). So a program that writes no label
like a made-up one comes to the same linked code from any number (`link_codeFrom_eq`).
-/

namespace LogicAsm

open Gen
open Piece (flatten own)

/-! ## Renamed labels -/

theorem maker_mem_structLabels {maker : Nat → String} (h : maker ∈ labelMakers) (id : Nat) :
    maker id ∈ structLabels id :=
  List.mem_map_of_mem (f := (· id)) h

theorem reserved_maker {maker : Nat → String} (h : maker ∈ labelMakers) (id : Nat) :
    Reserved (maker id) :=
  reserved_of_mem_structLabels (maker_mem_structLabels h id)

/-- A made-up label tells how it was made up. -/
theorem eq_of_maker_eq {maker maker' : Nat → String} (h : maker ∈ labelMakers)
    (h' : maker' ∈ labelMakers) {id id' : Nat} (he : maker id = maker' id') :
    maker = maker' ∧ id = id' := by
  obtain rfl : id = id' :=
    eq_of_mem_structLabels (maker_mem_structLabels h id) (he ▸ maker_mem_structLabels h' id')
  refine ⟨?_, rfl⟩
  simp only [labelMakers, List.mem_cons, List.not_mem_nil, or_false] at h h'
  rcases h with rfl | rfl | rfl <;> rcases h' with rfl | rfl | rfl
  case inl.inl | inr.inl.inr.inl | inr.inr.inr.inr => rfl
  all_goals simp [ifLabel, contLabel, whileLabel, String.ext_iff] at he

/-- The names of one label, with numbers from zero and from `shift` on. Names that are written in
the program stay as they are. -/
inductive RenamedLabel (shift : Nat) : String → String → Prop where
  | written {name : String} (h : ¬Reserved name) : RenamedLabel shift name name
  | madeUp {maker : Nat → String} (h : maker ∈ labelMakers) (id : Nat) :
      RenamedLabel shift (maker id) (maker (shift + id))

namespace RenamedLabel

variable {shift : Nat} {a b a' b' : String}

/-- Labels are renamed one to one. -/
theorem eq_iff (h : RenamedLabel shift a b) (h' : RenamedLabel shift a' b') : a = a' ↔ b = b' := by
  cases h with
  | written hn =>
    cases h' with
    | written => rfl
    | madeUp hm id =>
      exact ⟨fun he => (hn (he ▸ reserved_maker hm _)).elim,
        fun he => (hn (he ▸ reserved_maker hm _)).elim⟩
  | madeUp hm id =>
    cases h' with
    | written hn =>
      exact ⟨fun he => (hn (he ▸ reserved_maker hm _)).elim,
        fun he => (hn (he ▸ reserved_maker hm _)).elim⟩
    | madeUp hm' id' =>
      constructor
      · intro he
        obtain ⟨rfl, rfl⟩ := eq_of_maker_eq hm hm' he
        rfl
      · intro he
        obtain ⟨rfl, hid⟩ := eq_of_maker_eq hm hm' he
        rw [Nat.add_left_cancel hid]

theorem eq_of_not_reserved (h : RenamedLabel shift a b) (ha : ¬Reserved a) : a = b := by
  cases h with
  | written => rfl
  | madeUp hm id => exact (ha (reserved_maker hm id)).elim

end RenamedLabel

/-! ## Renumbered code -/

/-- An instruction with its label renamed, if it has one. -/
inductive Instr.Renumbered (shift : Nat) : Instr → Instr → Prop where
  | same {i : Instr} (hl : i.label? = none) (ht : ∀ name, i.target? ≠ some (.label name)) :
      Renumbered shift i i
  | label {a b : String} (h : RenamedLabel shift a b) : Renumbered shift (.label a) (.label b)
  | jump {a b cond left right : String} (h : RenamedLabel shift a b) :
      Renumbered shift (.jump (.label a) cond left right) (.jump (.label b) cond left right)
  | rawJump {a b : String} {operands : List String} (h : RenamedLabel shift a b) :
      Renumbered shift (.rawJump (.label a) operands) (.rawJump (.label b) operands)

namespace Instr.Renumbered

variable {shift : Nat} {i j : Instr}

/-- An instruction keeps a label that is no made-up one. -/
theorem refl (hl : ∀ name, i = .label name → ¬Reserved name)
    (ht : ∀ name, i.target? = some (.label name) → ¬Reserved name) : i.Renumbered shift i := by
  cases i with
  | label name => exact .label (.written (hl name rfl))
  | jump target =>
    cases target with
    | label name => exact .jump (.written (ht name rfl))
    | line number => exact .same rfl (by simp [target?])
  | rawJump target =>
    cases target with
    | label name => exact .rawJump (.written (ht name rfl))
    | line number => exact .same rfl (by simp [target?])
  | _ => exact .same rfl (by simp [target?])

theorem of_plain (h : i.Plain) : i.Renumbered shift i :=
  .same h.label?_eq_none (by simp [h.target?_eq_none])

theorem isLabel_eq (h : i.Renumbered shift j) : i.isLabel = j.isLabel := by
  cases h <;> rfl

end Instr.Renumbered

open Instr (Renumbered)

/-- Two tables agree on renamed labels. -/
def LabelTable.Agree (shift : Nat) (table table' : LabelTable) : Prop :=
  ∀ a b, RenamedLabel shift a b → table[a]? = table'[b]?

namespace LabelTable.Agree

variable {shift : Nat} {table table' : LabelTable}

theorem insert (h : table.Agree shift table') (hab : RenamedLabel shift a b) (line : Nat) :
    LabelTable.Agree shift (table.insert a line) (table'.insert b line) := by
  intro a' b' hab'
  rw [Std.TreeMap.getElem?_insert, Std.TreeMap.getElem?_insert, h a' b' hab']
  simp only [Std.compare_eq_iff_eq, hab.eq_iff hab']

/-- Renumbered code enters renamed labels at the same lines. -/
theorem enter {code code' : List Instr} (hcode : List.Forall₂ (Renumbered shift) code code')
    (h : table.Agree shift table') (line : Nat) :
    (table.enter line code).Agree shift (table'.enter line code') := by
  induction hcode generalizing table table' line with
  | nil => exact h
  | cons hi _ ih =>
    cases hi with
    | same hl => simpa only [LabelTable.enter, hl] using ih h (line + 1)
    | label hab => exact ih (h.insert hab line) line
    | jump | rawJump => exact ih h (line + 1)

end LabelTable.Agree

theorem Target.link_renamed {table table' : LabelTable} (hab : RenamedLabel shift a b)
    (h : table[a]? = table'[b]?) (hdef : table[a]? = none → ¬Reserved a) :
    (Target.label a).link table = (Target.label b).link table' := by
  rw [Target.link, Target.link, ← h]
  cases ha : table[a]? with
  | some line => rfl
  | none => rw [hab.eq_of_not_reserved (hdef ha)]

theorem Instr.Renumbered.link_eq {i j : Instr} {table table' : LabelTable}
    (h : i.Renumbered shift j) (htable : table.Agree shift table') (hi : i.isLabel = false)
    (hdef : ∀ name, i.target? = some (.label name) → table[name]? = none → ¬Reserved name) :
    i.link table = j.link table' := by
  cases h with
  | same hl ht =>
    cases i with
    | jump target | rawJump target =>
      cases target with
      | label name => exact (ht name rfl).elim
      | line number => rfl
    | _ => rfl
  | label => cases hi
  | jump hab | rawJump hab =>
    rw [Instr.link, Instr.link, Target.link_renamed hab (htable _ _ hab) (hdef _ rfl)]

/-- Renumbered code is linked alike, if it defines all made-up labels that it jumps to. -/
theorem link_eq_of_renumbered {code code' : List Instr}
    (h : List.Forall₂ (Renumbered shift) code code') (hclosed : Closed (¬Reserved ·) code) :
    link code = link code' := by
  have htable : (labelTable code).Agree shift (labelTable code') :=
    LabelTable.Agree.enter h (fun a b _ => by simp) 0
  have hstrip : List.Forall₂ (Renumbered shift) (strip code) (strip code') :=
    List.rel_filter (fun i j hij => by simp [hij.isLabel_eq]) h
  refine mapM_congr (((List.forall₂_and_left _ _).mpr ⟨fun i hi => hi, hstrip⟩).imp ?_)
  rintro i j ⟨hi, hij⟩
  obtain ⟨hmem, hlabel⟩ := mem_strip.mp hi
  refine hij.link_eq htable hlabel fun name ht hn => ?_
  exact (hclosed i hmem name ht).resolve_left (labelTable_eq_none_iff.mp hn)

/-! ## Programs -/

/-- The scope with numbers from `shift` on. -/
def Scope.shifted (shift : Nat) (c : Scope) : Scope := { c with nextId := shift + c.nextId }

/-- Statements have renumbered code in a scope that counts from another number. -/
theorem Stmt.correspondence_renumbered {ss : List Stmt} (shift : Nat)
    (hnames : ∀ name, Defines ss name ∨ Targets ss name → ¬Reserved name) :
    Correspondence (withinAll ss) id (Renumbered shift)
      fun c d => (c.shifted shift).Parallel (Renumbered shift) d where
  plain i hi := .of_plain hi
  functions hd := hd.functions
  next hd := hd.next
  declare hd f _ _ hcode := hd.declare f hcode
  label hd maker hm := by rw [hd.nextId]; exact .label (.madeUp hm _)
  test hd maker hm := by rw [hd.nextId]; exact .jump (.madeUp hm _)
  jump hd maker hm := by rw [hd.nextId]; exact .jump (.madeUp hm _)
  leaf s hs hleaf c ps c' hl d := by
    have hsame {i : Instr} (hi : i.Renumbered shift i) :
        List.Forall₂ (Renumbered shift) (flatten [own i]) (flatten [own i]) := by
      simpa using hi
    cases hl with
    | draw h => exact ⟨_, .draw h, hsame (.of_plain (Instr.plain_of_ofDrawing h))⟩
    | drawFlush => exact ⟨_, .drawFlush, hsame (.of_plain trivial)⟩
    | label => exact ⟨_, .label, hsame (.label (.written (hnames _ (.inl (.inl hs)))))⟩
    | goto => exact ⟨_, .goto, hsame (.jump (.written (hnames _ (.inr (.inl hs)))))⟩
    | @asm source i c h =>
      refine ⟨_, .asm h, hsame (.refl ?_ ?_)⟩
      · rintro name rfl
        exact hnames name (.inl (.inr ⟨source, hs, h⟩))
      · intro name ht
        exact hnames name (.inr (.inr ⟨source, i, hs, h, ht⟩))
    | _ => cases hleaf

/-- The code of a program, from a generator that starts to count at a number. -/
def codeFrom (nextId : Nat) (program : Body) : Except Fault (List Instr) :=
  match program.generate.run { nextId } with
  | .ok code _ => .ok code
  | .error fault _ => .error fault

theorem codeFrom_zero (program : Body) : codeFrom 0 program = codeOf program := rfl

/-- Where a generator starts to count plays no part in how it fails. -/
theorem codeFrom_of_codeOf_eq_error {program : Body} {fault : Fault}
    (h : codeOf program = .error fault) (nextId : Nat) :
    codeFrom nextId program = .error fault := by
  have hverdict : (verdict Generator.declared (program.generate.run { nextId })).1 =
      (verdict Generator.declared (program.generate.run {})).1 := by
    rw [program.tracks_checkRoot { nextId }, program.tracks_checkRoot {}]
    rfl
  rw [codeOf] at h
  rw [codeFrom]
  cases hr : program.generate.run {} with
  | ok code g => rw [hr] at h; cases h
  | error fault' g =>
    cases hr' : program.generate.run { nextId } with
    | ok code' g' => rw [hr, hr'] at hverdict; cases hverdict
    | error fault'' g' =>
      rw [hr] at h
      rw [hr, hr'] at hverdict
      cases h
      cases hverdict
      rfl

/-- The code that is counted from another number is the same, but for renamed labels. -/
theorem codeFrom_of_codeOf_eq_ok {ss : List Stmt} {code : List Instr}
    (hnames : ∀ name, Stmt.Defines ss name ∨ Stmt.Targets ss name → ¬Reserved name)
    (h : codeOf (.program ss) = .ok code) (nextId : Nat) :
    ∃ code', codeFrom nextId (.program ss) = .ok code' ∧
      List.Forall₂ (Renumbered nextId) code code' := by
  obtain ⟨_, ⟨_, ps, c', ⟨⟩, hl, rfl⟩, rfl⟩ := codeOf_eq_ok_iff.mp h
  have hinitial : (Scope.shifted nextId {}).Parallel (Renumbered nextId) { nextId } :=
    ⟨rfl, fun _ _ hf => (nomatch hf)⟩
  obtain ⟨qs, d', hq, hcode, -⟩ :=
    hl.parallel (Stmt.correspondence_renumbered nextId hnames) (fun s hs => hs) hinitial
  rw [Stmt.replaceAll_id] at hq
  have hdescribes : Scope.Describes { nextId } { code := preamble, nextId } :=
    ⟨rfl, fun _ => by simp⟩
  obtain ⟨g, hr, hg, -⟩ := hq.run hdescribes
  refine ⟨preamble ++ flatten qs ++ [.halt], ?_, ?_⟩
  · simp only [codeFrom, Body.generate, EStateM.run_bind, run_emitAll, List.nil_append, hr, hg,
      run_emit, EStateM.run_get, EStateM.run_pure]
  · have hplain {code : List Instr} (h : ∀ i ∈ code, i.Plain) :
        List.Forall₂ (Renumbered nextId) code code :=
      parallel_of_plain (fun _ => .of_plain) h
    simp only [Piece.flatten_append, Piece.flatten_map_own]
    refine List.rel_append (List.rel_append (hplain ?_) hcode) (hplain ?_)
    · simp [preamble, Instr.Plain]
    · simp [Instr.Plain]

/-- Linking does not tell from which number a program was counted. -/
theorem link_codeFrom_eq_codeOf {ss : List Stmt}
    (hnames : ∀ name, Stmt.Defines ss name ∨ Stmt.Targets ss name → ¬Reserved name) (n : Nat) :
    (codeFrom n (.program ss)).map link = (codeOf (.program ss)).map link := by
  cases hc : codeOf (.program ss) with
  | error fault => rw [codeFrom_of_codeOf_eq_error hc]
  | ok code =>
    obtain ⟨code', hcode', hsame⟩ := codeFrom_of_codeOf_eq_ok hnames hc n
    have hclosed : Closed (¬Reserved ·) code := fun i hi name ht =>
      (closed_of_codeOf hc i hi name ht).imp_right fun hn => hnames name (.inr hn)
    rw [hcode', Except.map, Except.map, link_eq_of_renumbered hsame hclosed]

/-- From whatever number control structures are counted: a program that writes no label like a
made-up one has the same linked code, or fails alike. -/
theorem link_codeFrom_eq (ss : List Stmt)
    (hnames : ∀ name, Stmt.Defines ss name ∨ Stmt.Targets ss name → ¬Reserved name) (m n : Nat) :
    (codeFrom m (.program ss)).map link = (codeFrom n (.program ss)).map link :=
  (link_codeFrom_eq_codeOf hnames m).trans (link_codeFrom_eq_codeOf hnames n).symm

/-- A function with a branch that is called in a loop and behind it, and a label that is written. -/
def calledAround : List Stmt :=
  [.function "f" (.block [.ifThen (.name "a") (.block [.goto "end"])]),
    .whileDo (.name "b") (.block [.expr (.call "f")]), .expr (.call "f"), .label "end"]

/-- Counted from nine, the loop has a label of another length. -/
theorem link_codeFrom_eq_calledAround :
    (∀ name, Stmt.Defines calledAround name ∨ Stmt.Targets calledAround name → ¬Reserved name) ∧
      codeFrom 9 (.program calledAround) ≠ codeFrom 0 (.program calledAround) ∧
      (codeFrom 9 (.program calledAround)).map link =
        (codeFrom 0 (.program calledAround)).map link := by
  have hnames (name : String)
      (h : Stmt.Defines calledAround name ∨ Stmt.Targets calledAround name) : ¬Reserved name := by
    obtain rfl : name = "end" := by
      simpa [calledAround, Stmt.Defines, Stmt.Targets, Stmt.within, Body.within] using h
    simp [Reserved, stems]
  refine ⟨hnames, ?_, link_codeFrom_eq calledAround hnames 9 0⟩
  decide +kernel

end LogicAsm
