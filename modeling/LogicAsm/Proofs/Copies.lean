import LogicAsm.Proofs.Execution
import LogicAsm.Proofs.OwnCode

/-!
# Copies of functions

The code of a function is copied as it is at each call, labels included, and a label stands for
its last definition. So a jump inside a copy stays in this copy just if the label is not defined
again behind it (`Copy.branch_within`, `Copy.branch_behind`). A label that is made up for a control
structure of a function stands in copies only: the numbers of a function are its own, as an
invariant of declared functions shows (`Stmt.Lowers.emits`). Unless the program writes the label
itself, each definition behind the copy therefore stands in another copy (`Copy.inCopy_behind`).
-/

namespace LogicAsm

open Piece (flatten own)

/-! ## Labels inside and outside copies -/

/-- A label that is defined in a copy among the pieces. -/
def Copied (ps : List Piece) (name : String) : Prop :=
  ∃ f body, .copy f body ∈ ps ∧ name ∈ labelsOf (flatten body)

theorem mem_labelsOf_flatten {ps : List Piece} :
    name ∈ labelsOf (flatten ps) ↔ own (.label name) ∈ ps ∨ Copied ps name := by
  rw [mem_labelsOf, mem_flatten]
  simp only [Copied, mem_labelsOf]

theorem copied_append {ps qs : List Piece} :
    Copied (ps ++ qs) name ↔ Copied ps name ∨ Copied qs name := by
  simp [Copied, or_and_right, exists_or]

/-- A copy in an outline, possibly inside other copies, with the pieces before and behind it. -/
inductive Copy : List Piece → List Piece → String → List Piece → List Piece → Prop where
  | here {pre post body : List Piece} {f : String} :
      Copy (pre ++ .copy f body :: post) pre f body post
  | inner {pre post body pre' post' body' : List Piece} {f f' : String}
      (h : Copy body pre' f' body' post') :
      Copy (pre ++ .copy f body :: post) (pre ++ pre') f' body' (post' ++ post)

theorem Copy.flatten_eq (h : Copy ps pre f body post) :
    flatten ps = flatten pre ++ flatten body ++ flatten post := by
  induction h with
  | here => simp
  | inner _ ih => simp [ih]

/-- The instruction between `a` and `b`, in the code of the pieces, stands in one of the copies. -/
inductive InCopy (i : Instr) : List Piece → List Instr → List Instr → Prop where
  | intro {pre body post : List Piece} {f : String} {a b : List Instr}
      (h : flatten body = a ++ i :: b) :
      InCopy i (pre ++ .copy f body :: post) (flatten pre ++ a) (b ++ flatten post)

theorem InCopy.cons (h : InCopy i ps a b) (p : Piece) : InCopy i (p :: ps) (p.code ++ a) b := by
  obtain @⟨pre, body, post, f, a, b, h⟩ := h
  rw [← List.append_assoc, ← Piece.flatten_cons]
  exact @InCopy.intro i (p :: pre) body post f a b h

theorem InCopy.copied (h : InCopy (.label name) ps a b) : Copied ps name := by
  obtain @⟨pre, body, post, f, a, b, h⟩ := h
  exact ⟨f, body, by simp, mem_labelsOf.mpr (by simp [h])⟩

/-- An instruction that does not stand among the pieces by itself stands in a copy. -/
theorem inCopy_of_not_own {ps : List Piece} {i : Instr} {a b : List Instr} (hown : own i ∉ ps)
    (h : flatten ps = a ++ i :: b) : InCopy i ps a b := by
  induction ps generalizing a with
  | nil => simp at h
  | cons p ps ih =>
    rw [List.mem_cons, not_or] at hown
    rw [Piece.flatten_cons, List.append_eq_append_iff] at h
    -- The instruction comes behind the first piece, or begins in it, or right at its end.
    obtain ⟨a', rfl, h⟩ | ⟨rest, hp, h⟩ := h
    · exact (ih hown.2 h).cons p
    · cases rest with
      | nil =>
        have hrest := (ih hown.2 (a := []) h.symm).cons p
        rwa [hp, List.append_nil, List.append_nil] at hrest
      | cons j rest =>
        obtain ⟨rfl, rfl⟩ := List.cons.inj h
        cases p with
        | own j =>
          obtain ⟨rfl, rfl, rfl⟩ : a = [] ∧ i = j ∧ rest = [] := by
            simpa [List.singleton_eq_append_iff] using hp
          exact (hown.1 rfl).elim
        | copy f body =>
          rw [Piece.code_copy] at hp
          exact @InCopy.intro i [] body ps f a rest hp

/-- But for written labels, what is defined outside the copies is not defined in them, and so in
each copy. -/
inductive Apart (written : String → Prop) : List Piece → Prop where
  | intro {ps : List Piece} (h : ∀ name, own (.label name) ∈ ps → written name ∨ ¬Copied ps name)
      (hcopy : ∀ f body, .copy f body ∈ ps → Apart written body) : Apart written ps

/-- Behind a copy, its labels are not defined outside of copies, but for written ones. -/
theorem Copy.not_mem_behind {written : String → Prop} (h : Copy ps pre f body post)
    (ha : Apart written ps) (hname : name ∈ labelsOf (flatten body)) (hw : ¬written name) :
    own (.label name) ∉ post := by
  induction h with
  | @here pre post body f =>
    obtain ⟨hown, -⟩ := ha
    intro hm
    refine ((hown name ?_).resolve_left hw) ⟨f, body, by simp, hname⟩
    simp [hm]
  | @inner pre post body pre' post' body' f f' h ih =>
    obtain ⟨hown, hcopy⟩ := ha
    rw [List.mem_append]
    rintro (hm | hm)
    · exact ih (hcopy f body (by simp)) hname hm
    · refine ((hown name ?_).resolve_left hw) ⟨f, body, by simp, ?_⟩
      · simp [hm]
      · rw [h.flatten_eq]
        simp [hname]

/-! ## Numbers of functions -/

theorem MadeUp.disjoint {lo hi lo' hi' : Nat} (h : MadeUp lo hi name) (h' : MadeUp lo' hi' name)
    (hle : hi ≤ lo') : False := by
  obtain ⟨id, -, hhi, hn⟩ := h
  obtain ⟨id', hlo, -, hn'⟩ := h'
  have := eq_of_mem_structLabels hn hn'
  omega

/-- A declared function defines the label. -/
def Scope.Holds (c : Scope) (name : String) : Prop :=
  ∃ f body, c.functions f = some body ∧ name ∈ labelsOf (flatten body)

/-- An invariant of declared functions: but for written labels, they define labels with numbers
that have been taken, and each keeps those of its own apart from those of its copies. -/
structure Scope.Sound (written : String → Prop) (c : Scope) : Prop where
  madeUp : ∀ name, c.Holds name → written name ∨ MadeUp 0 c.nextId name
  apart : ∀ f body, c.functions f = some body → Apart written body

/-- What emitting the pieces `ps` does to labels, from scope `c` to scope `c'`. -/
structure Emits (written : String → Prop) (c : Scope) (ps : List Piece) (c' : Scope) : Prop where
  le : c.nextId ≤ c'.nextId
  /-- Labels outside copies have numbers that were taken meanwhile. -/
  madeUp : ∀ name, own (.label name) ∈ ps → written name ∨ MadeUp c.nextId c'.nextId name
  /-- Other labels come from functions that were declared before. -/
  origin : ∀ name, name ∈ labelsOf (flatten ps) ∨ c'.Holds name →
    written name ∨ MadeUp c.nextId c'.nextId name ∨ c.Holds name
  apart : c.Sound written → Apart written ps
  declared : c.Sound written → ∀ f body, c'.functions f = some body → Apart written body
  /-- Labels outside copies are in no function. -/
  unheld : c.Sound written → ∀ name, own (.label name) ∈ ps → written name ∨ ¬c'.Holds name

namespace Emits

variable {written : String → Prop} {c c₁ c₂ c' : Scope} {ps qs : List Piece}

theorem sound (h : Emits written c ps c') (hc : c.Sound written) : c'.Sound written := by
  refine ⟨?_, h.declared hc⟩
  intro name hn
  rcases h.origin name (.inr hn) with hw | hm | hold
  · exact .inl hw
  · exact .inr (hm.mono (Nat.zero_le _) (Nat.le_refl _))
  · exact (hc.madeUp name hold).imp_right (.mono (Nat.le_refl _) h.le)

/-- Pieces whose labels are written, and whose copies are of declared functions. -/
theorem of_declared (hown : ∀ name, own (.label name) ∈ ps → written name)
    (hcopy : ∀ f body, .copy f body ∈ ps → c.functions f = some body) : Emits written c ps c := by
  refine ⟨Nat.le_refl _, fun name hn => .inl (hown name hn), ?_, ?_, Scope.Sound.apart,
    fun _ name hn => .inl (hown name hn)⟩
  · rintro name (hn | hn)
    · rcases mem_labelsOf_flatten.mp hn with hn | ⟨f, body, hm, hn⟩
      · exact .inl (hown name hn)
      · exact .inr (.inr ⟨f, body, hcopy f body hm, hn⟩)
    · exact .inr (.inr hn)
  · intro hc
    exact ⟨fun name hn => .inl (hown name hn),
      fun f body hm => hc.apart f body (hcopy f body hm)⟩

/-- The order of pieces plays no part. -/
theorem congr (h : Emits written c ps c') (hp : ∀ p, p ∈ qs ↔ p ∈ ps) : Emits written c qs c' := by
  have hcopied (name : String) : Copied qs name ↔ Copied ps name := by simp [Copied, hp]
  refine ⟨h.le, fun name hn => h.madeUp name ((hp _).mp hn), ?_, ?_,
    h.declared, fun hc name hn => h.unheld hc name ((hp _).mp hn)⟩
  · intro name hn
    refine h.origin name (hn.imp_left ?_)
    intro hn
    rwa [mem_labelsOf_flatten, ← hp, ← hcopied, ← mem_labelsOf_flatten]
  · intro hc
    obtain ⟨hown, hcopy⟩ := h.apart hc
    refine ⟨?_, fun f body hm => hcopy f body ((hp _).mp hm)⟩
    intro name hn
    rw [hcopied]
    exact hown name ((hp _).mp hn)

theorem append (h : Emits written c ps c₁) (h' : Emits written c₁ qs c₂) :
    Emits written c (ps ++ qs) c₂ := by
  -- A label of the first part comes into no function, and into no copy, later on.
  have hfirst (hc : c.Sound written) (name : String) (hn : own (.label name) ∈ ps)
      (hlater : name ∈ labelsOf (flatten qs) ∨ c₂.Holds name) : written name := by
    rcases h'.origin name hlater with hw | hm | hheld
    · exact hw
    · exact (h.madeUp name hn).resolve_right fun hm' => hm'.disjoint hm (Nat.le_refl _)
    · exact (h.unheld hc name hn).resolve_right fun hn => hn hheld
  -- A label of the second part has a number that was not taken before.
  have hsecond (hc : c.Sound written) (name : String) (hn : own (.label name) ∈ qs)
      (hbefore : name ∈ labelsOf (flatten ps)) : written name := by
    rcases h.origin name (.inl hbefore) with hw | hm | hheld
    · exact hw
    · exact (h'.madeUp name hn).resolve_right fun hm' => hm.disjoint hm' (Nat.le_refl _)
    · rcases hc.madeUp name hheld with hw | hm
      · exact hw
      · exact (h'.madeUp name hn).resolve_right fun hm' => hm.disjoint hm' h.le
  have hwiden {name : String} (hn : written name ∨ MadeUp c.nextId c₁.nextId name ∨ c.Holds name) :
      written name ∨ MadeUp c.nextId c₂.nextId name ∨ c.Holds name :=
    hn.imp_right (.imp_left (.mono (Nat.le_refl _) h'.le))
  refine ⟨Nat.le_trans h.le h'.le, ?_, ?_, ?_, fun hc => h'.declared (h.sound hc), ?_⟩
  · intro name hn
    rcases List.mem_append.mp hn with hn | hn
    · exact (h.madeUp name hn).imp_right (.mono (Nat.le_refl _) h'.le)
    · exact (h'.madeUp name hn).imp_right (.mono h.le (Nat.le_refl _))
  · intro name hn
    rw [Piece.flatten_append, labelsOf_append, List.mem_append, or_assoc] at hn
    rcases hn with hn | hn
    · exact hwiden (h.origin name (.inl hn))
    · rcases h'.origin name hn with hw | hm | hheld
      · exact .inl hw
      · exact .inr (.inl (hm.mono h.le (Nat.le_refl _)))
      · exact hwiden (h.origin name (.inr hheld))
  · intro hc
    obtain ⟨hown, hcopy⟩ := h.apart hc
    obtain ⟨hown', hcopy'⟩ := h'.apart (h.sound hc)
    refine ⟨?_, ?_⟩
    · intro name hn
      refine or_iff_not_imp_left.mpr ?_
      intro hw
      rw [copied_append, not_or]
      rcases List.mem_append.mp hn with hn | hn
      · refine ⟨(hown name hn).resolve_left hw, fun hq => hw ?_⟩
        exact hfirst hc name hn (.inl (mem_labelsOf_flatten.mpr (.inr hq)))
      · refine ⟨fun hp => hw ?_, (hown' name hn).resolve_left hw⟩
        exact hsecond hc name hn (mem_labelsOf_flatten.mpr (.inr hp))
    · intro f body hm
      rcases List.mem_append.mp hm with hm | hm
      · exact hcopy f body hm
      · exact hcopy' f body hm
  · intro hc name hn
    rcases List.mem_append.mp hn with hn | hn
    · exact or_iff_not_imp_left.mpr fun hw hheld => hw (hfirst hc name hn (.inr hheld))
    · exact h'.unheld (h.sound hc) name hn

/-- A control structure takes a number for labels of its own. -/
theorem enclose (h : Emits written c.next ps c') (mine : List String)
    (hmine : mine ⊆ structLabels c.nextId) :
    Emits written c (mine.map (own ∘ .label) ++ ps) c' := by
  have hlt : c.nextId < c'.nextId := h.le
  have hmem {name : String} : own (.label name) ∈ mine.map (own ∘ .label) ++ ps ↔
      name ∈ mine ∨ own (.label name) ∈ ps := by
    simp
  have hcopied {name : String} : Copied (mine.map (own ∘ .label) ++ ps) name ↔ Copied ps name := by
    rw [copied_append]
    simp [Copied]
  -- The number is new, so that no function has a label with it.
  have hnew (hc : c.Sound written) (name : String) (hn : name ∈ mine)
      (hlater : name ∈ labelsOf (flatten ps) ∨ c'.Holds name) : written name := by
    have hid : MadeUp c.nextId (c.nextId + 1) name :=
      ⟨c.nextId, Nat.le_refl _, Nat.lt_succ_self _, hmine hn⟩
    rcases h.origin name hlater with hw | hm | hheld
    · exact hw
    · exact (hid.disjoint hm (Nat.le_refl _)).elim
    · exact (hc.madeUp name hheld).resolve_right fun hm => hm.disjoint hid (Nat.le_refl _)
  have hsound (hc : c.Sound written) : c.next.Sound written :=
    ⟨fun name hn => (hc.madeUp name hn).imp_right (.mono (Nat.le_refl _) (Nat.le_succ _)), hc.apart⟩
  refine ⟨Nat.le_of_lt hlt, ?_, ?_, ?_, fun hc => h.declared (hsound hc), ?_⟩
  · intro name hn
    rcases hmem.mp hn with hn | hn
    · exact .inr ⟨c.nextId, Nat.le_refl _, hlt, hmine hn⟩
    · exact (h.madeUp name hn).imp_right (.mono (Nat.le_succ _) (Nat.le_refl _))
  · intro name hn
    rw [mem_labelsOf_flatten, hmem, hcopied, or_assoc, or_assoc, ← or_assoc (a := own _ ∈ ps),
      ← mem_labelsOf_flatten] at hn
    rcases hn with hn | hn
    · exact .inr (.inl ⟨c.nextId, Nat.le_refl _, hlt, hmine hn⟩)
    · exact (h.origin name hn).imp_right
        (.imp_left (.mono (Nat.le_succ _) (Nat.le_refl _)))
  · intro hc
    obtain ⟨hown, hcopy⟩ := h.apart (hsound hc)
    refine ⟨?_, fun f body hm => hcopy f body (by simpa using hm)⟩
    intro name hn
    rw [hcopied]
    rcases hmem.mp hn with hn | hn
    · refine or_iff_not_imp_left.mpr fun hw hp => hw ?_
      exact hnew hc name hn (.inl (mem_labelsOf_flatten.mpr (.inr hp)))
    · exact hown name hn
  · intro hc name hn
    rcases hmem.mp hn with hn | hn
    · exact or_iff_not_imp_left.mpr fun hw hheld => hw (hnew hc name hn (.inr hheld))
    · exact h.unheld (hsound hc) name hn

/-- A declaration emits nothing, and keeps the pieces of its body. -/
theorem function (h : Emits written c ps c') (f : String) :
    Emits written c [] (c'.declare f ps) := by
  refine ⟨h.le, by simp, ?_, fun _ => ⟨by simp, by simp⟩, ?_, by simp⟩
  · rintro name (hn | ⟨g, body, hg, hn⟩)
    · simp at hn
    · rw [Scope.declare_functions, Function.update_apply] at hg
      split at hg
      · cases hg
        exact h.origin name (.inl hn)
      · exact h.origin name (.inr ⟨g, body, hg, hn⟩)
  · intro hc g body hg
    rw [Scope.declare_functions, Function.update_apply] at hg
    split at hg
    · cases hg
      exact h.apart hc
    · exact h.declared hc g body hg

end Emits

/-! ## Statements -/

namespace Expr

theorem Lowers.not_label_mem {e : Expr} (h : e.Lowers functions dest ps) (name : String) :
    own (.label name) ∉ ps := by
  intro hm
  exact (h.plain _ (mem_ownCode.mpr hm)).elim

theorem Lowers.emits {written : String → Prop} {c : Scope} {e : Expr}
    (h : e.Lowers c.functions dest ps) : Emits written c ps c :=
  .of_declared (fun name hm => (h.not_label_mem name hm).elim) fun _ _ => h.functions_of_copy

end Expr

namespace Stmt

/-- By induction on the outline, whose pieces are those of its parts in some order. -/
theorem Lowers.emits {written : String → Prop} (h : Lowers c ss ps c')
    (hw : ∀ name, Defines ss name → written name) : Emits written c ps c' := by
  have hjump (c : Scope) (target : Target) : Emits written c [own (.goto target)] c :=
    .of_declared (by simp [Instr.goto]) (by simp)
  have htest (c : Scope) (target : Target) : Emits written c [own (.gotoUnless target)] c :=
    .of_declared (by simp [Instr.gotoUnless]) (by simp)
  induction h with
  | nil => exact .of_declared (by simp) (by simp)
  | cons _ _ ih ih' =>
    refine (ih ?_).append (ih' ?_)
    · intro name hd
      exact hw name (hd.mono (by simp))
    · intro name hd
      exact hw name (hd.mono (by simp))
  | block _ ih => exact ih fun name hd => hw name (hd.mono (by simp [within]))
  | expr h => exact h.emits
  | print h =>
    refine .of_declared ?_ ?_
    · intro name hm
      simp only [List.mem_append, List.mem_singleton, Piece.own.injEq, reduceCtorEq, or_false] at hm
      exact (h.plain _ (mem_ownCode.mpr hm)).elim
    · intro f body hm
      simp only [List.mem_append, List.mem_singleton, reduceCtorEq, or_false] at hm
      exact h.functions_of_copy hm
  | draw h =>
    refine .of_declared ?_ (by simp)
    intro name hm
    cases List.mem_singleton.mp hm
    exact (Instr.plain_of_ofDrawing h).elim
  | drawFlush => exact .of_declared (by simp) (by simp)
  | @asm source i c h =>
    refine .of_declared ?_ (by simp)
    intro name hm
    cases List.mem_singleton.mp hm
    exact hw name (.inr ⟨source, by simp [within], h⟩)
  | @function c c' f body ss ps hb _ ih =>
    refine (ih ?_).function f
    intro name hd
    exact hw name (hd.mono (by simp [within, Body.within_of_statements? hb]))
  | @ifThen c c' test body ss ps qs hc hb _ ih =>
    have hbody := ih fun name hd =>
      hw name (hd.mono (by simp [within, Body.within_of_statements? hb]))
    have h := (hc.emits.append (htest c (.label (ifLabel c.nextId)))).append
      (hbody.enclose [ifLabel c.nextId] (by simp [structLabels]))
    exact h.congr fun p => by grind
  | @ifElse c c₁ c₂ test body body' ss ss' ps qs qs' hc hb hb' _ _ ih ih' =>
    have hbody := ih fun name hd =>
      hw name (hd.mono (by simp [within, Body.within_of_statements? hb]))
    have hbody' := ih' fun name hd =>
      hw name (hd.mono (by simp [within, Body.within_of_statements? hb']))
    have h := (hc.emits.append (htest c (.label (ifLabel c.nextId)))).append
      (((hbody.append (hjump c₁ (.label (contLabel c.nextId)))).append hbody').enclose
        [ifLabel c.nextId, contLabel c.nextId] (by simp [structLabels]))
    exact h.congr fun p => by grind
  | @whileDo c c' test body ss ps qs hc hb _ ih =>
    have hbody := ih fun name hd =>
      hw name (hd.mono (by simp [within, Body.within_of_statements? hb]))
    have h := (hc.emits.append (htest c (.label (contLabel c.nextId)))).append
      ((hbody.append (hjump c' (.label (whileLabel c.nextId)))).enclose
        [whileLabel c.nextId, contLabel c.nextId] (by simp [structLabels]))
    exact h.congr fun p => by grind
  | label =>
    refine .of_declared ?_ (by simp)
    intro name hm
    cases List.mem_singleton.mp hm
    exact hw _ (.inl (by simp [within]))
  | goto => exact hjump _ _

end Stmt

/-! ## Programs -/

theorem Body.Outline.apart {ss : List Stmt} (h : (Body.program ss).Outline ps) :
    Apart (Stmt.Defines ss) ps := by
  obtain ⟨ss, qs, c', ⟨⟩, hl, rfl⟩ := h
  have hinitial : Scope.Sound (Stmt.Defines ss) {} :=
    ⟨fun name ⟨_, _, hf, _⟩ => (nomatch hf), fun _ _ hf => (nomatch hf)⟩
  have hpre : Emits (Stmt.Defines ss) {} (preamble.map own) {} :=
    .of_declared (by simp [preamble]) (by simp)
  have hend : Emits (Stmt.Defines ss) c' [own .halt] c' := .of_declared (by simp) (by simp)
  exact ((hpre.append (hl.emits fun _ hd => hd)).append hend).apart hinitial

/-- Behind a copy, a label of the copy that the program does not write is defined in other copies
only. -/
theorem Copy.inCopy_behind {ss : List Stmt} (hout : (Body.program ss).Outline ps)
    (h : Copy ps pre f body post) (hname : name ∈ labelsOf (flatten body))
    (hw : ¬Stmt.Defines ss name) {a b : List Instr} (hpost : flatten post = a ++ .label name :: b) :
    InCopy (.label name) post a b :=
  inCopy_of_not_own (h.not_mem_behind hout.apart hname hw) hpost

/-- The destination of a linked jump, from the last definition of its label. -/
theorem branch_of_last_label {code linked : List Instr} (hlink : link code = .ok linked)
    {i : Instr} (hcode : code = pre ++ i :: post) (hi : i.branch? = some (.label name, g))
    (hlabel : code = pre' ++ .label name :: post') (hlast : name ∉ labelsOf post') :
    ∃ j, linked[lines pre]? = some j ∧ j.branch? = some (.line (lines pre'), g) := by
  have hn : i.isLabel = false := by cases i <;> first | rfl | cases hi
  obtain ⟨j, hj, hat⟩ := getElem?_of_link hlink hcode hn
  obtain ⟨target, ht, hb⟩ := Instr.branch?_of_link hj hi
  rw [Target.link, hlabel, getElem?_labelTable hlast] at ht
  cases ht
  exact ⟨j, hat, hb⟩

namespace Copy

variable {ps pre body post : List Piece} {linked a b a' b' : List Instr} {i : Instr}
  (h : Copy ps pre f body post) (hlink : link (flatten ps) = .ok linked)
  (hbody : flatten body = a ++ i :: b) (hi : i.branch? = some (.label name, g))
include h hlink hbody hi

theorem branch_of_last (hlabel : flatten ps = a' ++ .label name :: b')
    (hlast : name ∉ labelsOf b') :
    ∃ j, linked[lines (flatten pre) + lines a]? = some j ∧
      j.branch? = some (.line (lines a'), g) := by
  have hjump : flatten ps = (flatten pre ++ a) ++ i :: (b ++ flatten post) := by
    simp [h.flatten_eq, hbody]
  simpa only [lines_append] using branch_of_last_label hlink hjump hi hlabel hlast

/-- A jump to a label that is not defined behind the copy goes to the last definition in it. -/
theorem branch_within (hlabel : flatten body = a' ++ .label name :: b')
    (hlast : name ∉ labelsOf b') (hbehind : name ∉ labelsOf (flatten post)) :
    ∃ j, linked[lines (flatten pre) + lines a]? = some j ∧
      j.branch? = some (.line ↑(lines (flatten pre) + lines a'), g) := by
  have hdef : flatten ps = (flatten pre ++ a') ++ .label name :: (b' ++ flatten post) := by
    simp [h.flatten_eq, hlabel]
  have hbranch := h.branch_of_last hlink hbody hi hdef (by simp [hlast, hbehind])
  rwa [lines_append] at hbranch

/-- A jump to a label that is defined behind the copy goes to the last definition there. -/
theorem branch_behind (hlabel : flatten post = a' ++ .label name :: b')
    (hlast : name ∉ labelsOf b') :
    ∃ j, linked[lines (flatten pre) + lines a]? = some j ∧
      j.branch? = some (.line ↑(lines (flatten pre) + lines (flatten body) + lines a'), g) := by
  have hdef : flatten ps = (flatten pre ++ flatten body ++ a') ++ .label name :: b' := by
    simp [h.flatten_eq, hlabel]
  have hbranch := h.branch_of_last hlink hbody hi hdef hlast
  rwa [lines_append, lines_append] at hbranch

end Copy

/-- Where the jumps of a copy go. Let the copy take the lines from `s` to `e`, and let one of its
jumps have a label that the copy defines. If the label is not defined behind the copy, the jump
goes to the definition in the copy, the last one if there are several, on a line from `s` to `e`.
Otherwise it goes to the last definition behind the copy, and this one stands in another copy,
unless the program writes the label itself. So the jump stays in its copy if the program does not
write the label, and no copy behind defines it. -/
theorem copy_jumps_resolved {ss : List Stmt} {code linked : List Instr}
    {ps pre body post : List Piece} {f : String} (hcode : codeOf (.program ss) = .ok code)
    (hlink : link code = .ok linked) (hout : (Body.program ss).Outline ps)
    (hcopy : Copy ps pre f body post) {a b : List Instr} {i : Instr} {name : String} {g : Guard}
    (hbody : flatten body = a ++ i :: b) (hi : i.branch? = some (.label name, g))
    (hname : name ∈ labelsOf (flatten body)) :
    let s := lines (flatten pre)
    let e := s + lines (flatten body)
    ∃ (j : Instr) (k : Nat), linked[s + lines a]? = some j ∧ j.branch? = some (.line k, g) ∧
      (name ∉ labelsOf (flatten post) ∧ s ≤ k ∧ k ≤ e ∧
          (∃ a' b', flatten body = a' ++ .label name :: b' ∧ name ∉ labelsOf b' ∧
            k = s + lines a') ∨
        name ∈ labelsOf (flatten post) ∧
          ∃ a' b', flatten post = a' ++ .label name :: b' ∧ name ∉ labelsOf b' ∧
            k = e + lines a' ∧ (¬Stmt.Defines ss name → InCopy (.label name) post a' b')) ∧
      (¬Stmt.Defines ss name → ¬Copied post name → s ≤ k ∧ k ≤ e) := by
  intro s e
  cases hcode.symm.trans (codeOf_eq_ok_iff.mpr ⟨ps, hout, rfl⟩)
  by_cases hbehind : name ∈ labelsOf (flatten post)
  · obtain ⟨a', b', hlabel, hlast⟩ := exists_last_label hbehind
    obtain ⟨j, hat, hb⟩ := hcopy.branch_behind hlink hbody hi hlabel hlast
    have hin (hw : ¬Stmt.Defines ss name) : InCopy (.label name) post a' b' :=
      hcopy.inCopy_behind hout hname hw hlabel
    refine ⟨j, _, hat, hb, .inr ⟨hbehind, a', b', hlabel, hlast, rfl, hin⟩, ?_⟩
    intro hw hnone
    exact (hnone (hin hw).copied).elim
  · obtain ⟨a', b', hlabel, hlast⟩ := exists_last_label hname
    obtain ⟨j, hat, hb⟩ := hcopy.branch_within hlink hbody hi hlabel hlast hbehind
    have hs : s ≤ s + lines a' := Nat.le_add_right _ _
    have he : s + lines a' ≤ e := by simp [e, hlabel]
    exact ⟨j, _, hat, hb, .inl ⟨hbehind, hs, he, a', b', hlabel, hlast, rfl⟩, fun _ _ => ⟨hs, he⟩⟩

/-- A function with a branch, called twice. -/
def calledTwice : List Stmt :=
  [.function "f" (.block [.ifThen (.name "a") (.block [.expr (.assign "b" (.literal "1"))])]),
    .expr (.call "f"), .expr (.call "f")]

namespace calledTwice

/-- The pieces of its function. -/
def body : List Piece :=
  [own (.set Machine.acc "a"), own (.gotoUnless (.label (ifLabel 0))), own (.set "b" "1"),
    own (.label (ifLabel 0))]

/-- The pieces of the whole program. -/
def pieces : List Piece :=
  preamble.map own ++ [.copy "f" body, .copy "f" body] ++ [own .halt]

theorem outline : (Body.program calledTwice).Outline pieces := by
  have hbody : Stmt.Lowers {} [.ifThen (.name "a") (.block [.expr (.assign "b" (.literal "1"))])]
      body { nextId := 1 } :=
    .ifThen (.atom rfl) rfl (.expr (.assign (.atom rfl)))
  exact ⟨calledTwice, _, _, rfl,
    .cons (.function rfl hbody) (.cons (.expr (.call rfl)) (.expr (.call rfl))), rfl⟩

theorem codeOf_eq : codeOf (.program calledTwice) = .ok (flatten pieces) :=
  codeOf_eq_ok_iff.mpr ⟨pieces, outline, rfl⟩

theorem flatten_body : flatten body = [.set Machine.acc "a"] ++
    .gotoUnless (.label (ifLabel 0)) :: [.set "b" "1", .label (ifLabel 0)] := rfl

theorem mem_labelsOf_body : ifLabel 0 ∈ labelsOf (flatten body) := by
  rw [mem_labelsOf, flatten_body]
  simp

theorem not_defines : ¬Stmt.Defines calledTwice (ifLabel 0) := by
  simp [Stmt.Defines, calledTwice, Stmt.within, Body.within]

theorem first_copy :
    Copy pieces (preamble.map own) "f" body [.copy "f" body, own .halt] := by
  show Copy (preamble.map own ++ .copy "f" body :: [.copy "f" body, own .halt]) _ _ _ _
  exact .here

theorem second_copy :
    Copy pieces (preamble.map own ++ [.copy "f" body]) "f" body [own .halt] := by
  show Copy ((preamble.map own ++ [.copy "f" body]) ++ .copy "f" body :: [own .halt]) _ _ _ _
  exact .here

end calledTwice

/-- The second copy takes the lines from 8 to 11, and its jump stays there. The jump of the first
copy goes to a label in the second. -/
theorem copy_jumps_resolved_calledTwice :
    ∃ linked j j' k, ∃ k' : Nat, link (flatten calledTwice.pieces) = .ok linked ∧
      linked[9]? = some j ∧ j.branch? = some (.line k, .test "equal" Machine.acc "0") ∧
      8 ≤ k ∧ k ≤ 11 ∧
      linked[6]? = some j' ∧ j'.branch? = some (.line k', .test "equal" Machine.acc "0") ∧
      ∃ a b, InCopy (.label (ifLabel 0)) [.copy "f" calledTwice.body, own .halt] a b ∧
        k' = 8 + lines a := by
  obtain ⟨linked, hlink⟩ : ∃ linked, link (flatten calledTwice.pieces) = .ok linked := ⟨_, rfl⟩
  obtain ⟨j, k, hat, hb, -, hstay⟩ := copy_jumps_resolved calledTwice.codeOf_eq hlink
    calledTwice.outline calledTwice.second_copy calledTwice.flatten_body rfl
    calledTwice.mem_labelsOf_body
  obtain ⟨j', k', hat', hb', hgo, -⟩ := copy_jumps_resolved calledTwice.codeOf_eq hlink
    calledTwice.outline calledTwice.first_copy calledTwice.flatten_body rfl
    calledTwice.mem_labelsOf_body
  obtain ⟨hs, he⟩ := hstay calledTwice.not_defines (by simp [Copied])
  refine ⟨linked, j, j', k, k', hlink, hat, hb, Int.ofNat_le.mpr hs, Int.ofNat_le.mpr he, hat', hb',
    ?_⟩
  rcases hgo with ⟨hbehind, -⟩ | ⟨-, a, b, -, -, hk, hin⟩
  · exact (hbehind (by simp [calledTwice.mem_labelsOf_body])).elim
  · exact ⟨a, b, hin calledTwice.not_defines, hk⟩

/-- The first copy takes the lines from 5 to 8, and has a jump to a label that it defines. The
jump goes to line 11, to the label of the second copy. -/
theorem copy_not_independent :
    ∃ linked pre post a b, codeOf (.program calledTwice) = .ok (flatten calledTwice.pieces) ∧
      link (flatten calledTwice.pieces) = .ok linked ∧
      (Body.program calledTwice).Outline calledTwice.pieces ∧
      Copy calledTwice.pieces pre "f" calledTwice.body post ∧
      flatten calledTwice.body = a ++ .gotoUnless (.label (ifLabel 0)) :: b ∧
      ifLabel 0 ∈ labelsOf (flatten calledTwice.body) ∧
      lines (flatten pre) = 5 ∧ lines (flatten pre) + lines (flatten calledTwice.body) = 8 ∧
      linked[lines (flatten pre) + lines a]? = some (.gotoUnless (.line 11)) :=
  ⟨_, _, _, _, _, calledTwice.codeOf_eq, rfl, calledTwice.outline, calledTwice.first_copy,
    calledTwice.flatten_body, calledTwice.mem_labelsOf_body, rfl, rfl, rfl⟩

end LogicAsm
