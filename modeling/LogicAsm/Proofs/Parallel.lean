import LogicAsm.Proofs.Replacement

/-!
# Code in parallel

Two lowerings that give code line by line alike, up to a relation between instructions. It is
enough to say what becomes of the leaves of a tree, of the labels of control structures and of the
scope (`Stmt.Correspondence`): then corresponding trees have corresponding code
(`Stmt.Lowers.parallel`).
-/

namespace LogicAsm

open Piece (flatten own)

/-! ## Scopes in parallel -/

/-- Scopes that number alike, with functions whose code corresponds line by line. -/
structure Scope.Parallel (r : Instr → Instr → Prop) (c d : Scope) : Prop where
  nextId : d.nextId = c.nextId
  functions : ∀ f body, c.functions f = some body →
    ∃ body', d.functions f = some body' ∧ List.Forall₂ r (flatten body) (flatten body')

namespace Scope.Parallel

variable {r : Instr → Instr → Prop} {c d : Scope}

theorem next (h : c.Parallel r d) : c.next.Parallel r d.next :=
  ⟨congrArg (· + 1) h.nextId, h.functions⟩

theorem declare (h : c.Parallel r d) (f : String) {ps qs : List Piece}
    (hps : List.Forall₂ r (flatten ps) (flatten qs)) :
    (c.declare f ps).Parallel r (d.declare f qs) := by
  refine ⟨h.nextId, ?_⟩
  intro g body hg
  rw [declare_functions, Function.update_apply] at hg ⊢
  split at hg
  · cases hg
    exact ⟨qs, if_pos ‹_›, hps⟩
  · rw [if_neg ‹_›]
    exact h.functions g body hg

end Scope.Parallel

/-! ## Expressions -/

section Parallel

variable {r : Instr → Instr → Prop} (hr : ∀ i : Instr, i.Plain → r i i)
include hr

theorem parallel_of_plain {code : List Instr} (h : ∀ i ∈ code, i.Plain) :
    List.Forall₂ r code code :=
  List.forall₂_same.mpr fun i hi => hr i (h i hi)

theorem Dest.parallel_settled (dest : Dest) :
    List.Forall₂ r (flatten dest.settled) (flatten dest.settled) := by
  refine parallel_of_plain hr ?_
  rw [flatten_eq_ownCode dest.own_settled]
  exact dest.plain_settled

namespace Expr

/-- An expression has corresponding code in parallel scopes. -/
theorem Lowers.parallel {e : Expr} {functions functions' : String → Option (List Piece)}
    (hf : ∀ f body, functions f = some body →
      ∃ body', functions' f = some body' ∧ List.Forall₂ r (flatten body) (flatten body'))
    (h : e.Lowers functions dest ps) :
    ∃ qs, e.Lowers functions' dest qs ∧ List.Forall₂ r (flatten ps) (flatten qs) := by
  have hsettled (dest : Dest) := dest.parallel_settled hr
  have hcons {i : Instr} {code code' : List Instr} (hi : i.Plain) (h : List.Forall₂ r code code') :
      List.Forall₂ r (i :: code) (i :: code') :=
    .cons (hr i hi) h
  have hset {d x : String} : (Instr.set d x).Plain := trivial
  have hop {m d x y : String} : (Instr.op m d x y).Plain := trivial
  have hsensor {d x y : String} : (Instr.sensor d x y).Plain := trivial
  induction h with
  | atom he => exact ⟨_, .atom he, by simpa using hcons hset .nil⟩
  | @call f body dest hb =>
    obtain ⟨body', hb', hcode⟩ := hf f body hb
    exact ⟨_, .call hb', by simpa using List.rel_append hcode (hsettled dest)⟩
  | @paren e ps dest _ ih =>
    obtain ⟨qs, hq, hcode⟩ := ih
    exact ⟨_, .paren hq, by simpa using List.rel_append hcode (hsettled dest)⟩
  | unaryAtom he =>
    exact ⟨_, .unaryAtom he, by simpa using hcons (UnaryOp.plain_instr _ _) (hsettled _)⟩
  | unary he _ ih =>
    obtain ⟨qs, hq, hcode⟩ := ih
    refine ⟨_, .unary he hq, ?_⟩
    simpa using List.rel_append hcode (hcons (UnaryOp.plain_instr _ _) (hsettled _))
  | binaryAtoms hl hr' => exact ⟨_, .binaryAtoms hl hr', by simpa using hcons hop .nil⟩
  | binaryRight hl hr' _ ih =>
    obtain ⟨qs, hq, hcode⟩ := ih
    exact ⟨_, .binaryRight hl hr' hq, by simpa using List.rel_append hcode (hcons hop .nil)⟩
  | binaryLeft hl hr' _ ih =>
    obtain ⟨qs, hq, hcode⟩ := ih
    exact ⟨_, .binaryLeft hl hr' hq, by simpa using List.rel_append hcode (hcons hop .nil)⟩
  | binary hl hr' _ _ ih ih' =>
    obtain ⟨qs, hq, hcode⟩ := ih
    obtain ⟨qs', hq', hcode'⟩ := ih'
    have hpush : List.Forall₂ r (pushCode Machine.acc) (pushCode Machine.acc) :=
      parallel_of_plain hr (by simp [pushCode, Instr.Plain])
    have hpop : List.Forall₂ r (popCode Machine.regB) (popCode Machine.regB) :=
      parallel_of_plain hr (by simp [popCode, Instr.Plain])
    refine ⟨_, .binary hl hr' hq hq', ?_⟩
    simpa using List.rel_append hcode (List.rel_append hpush
      (List.rel_append hcode' (List.rel_append hpop (hcons hop .nil))))
  | assign _ ih =>
    obtain ⟨qs, hq, hcode⟩ := ih
    exact ⟨_, .assign hq, by simpa using List.rel_append hcode (hsettled _)⟩
  | updateAtom he => exact ⟨_, .updateAtom he, by simpa using hcons hop (hsettled _)⟩
  | update he _ ih =>
    obtain ⟨qs, hq, hcode⟩ := ih
    refine ⟨_, .update he hq, ?_⟩
    simpa using List.rel_append hcode (hcons hop (hsettled _))
  | sensor => exact ⟨_, .sensor, by simpa using hcons hsensor (hsettled _)⟩

theorem LowersPrint.parallel {functions functions' : String → Option (List Piece)}
    (hf : ∀ f body, functions f = some body →
      ∃ body', functions' f = some body' ∧ List.Forall₂ r (flatten body) (flatten body'))
    (h : LowersPrint functions args ps) :
    ∃ qs, LowersPrint functions' args qs ∧ List.Forall₂ r (flatten ps) (flatten qs) := by
  induction h with
  | nil => exact ⟨_, .nil, by simp⟩
  | atom he _ ih =>
    obtain ⟨qs, hq, hcode⟩ := ih
    exact ⟨_, .atom he hq, by simpa using ⟨hr (.print _) trivial, hcode⟩⟩
  | computed he h _ ih =>
    obtain ⟨qs, hq, hcode⟩ := h.parallel hr hf
    obtain ⟨qs', hq', hcode'⟩ := ih
    refine ⟨_, .computed he hq hq', ?_⟩
    simpa using List.rel_append hcode (.cons (hr (.print _) trivial) hcode')

end Expr

end Parallel

/-! ## Statements -/

/-- The ways to make up a label for a control structure. -/
def labelMakers : List (Nat → String) := [ifLabel, contLabel, whileLabel]

/-- What makes the code of statements correspond, line by line, to the code of the same statements
with other leaves, in another scope. -/
structure Stmt.Correspondence (within : List Stmt) (onLeaf : Stmt → Stmt)
    (r : Instr → Instr → Prop) (related : Scope → Scope → Prop) : Prop where
  plain : ∀ i : Instr, i.Plain → r i i
  functions : ∀ {c d}, related c d → ∀ f body, c.functions f = some body →
    ∃ body', d.functions f = some body' ∧ List.Forall₂ r (flatten body) (flatten body')
  next : ∀ {c d}, related c d → related c.next d.next
  declare : ∀ {c d}, related c d → ∀ f {ps qs}, List.Forall₂ r (flatten ps) (flatten qs) →
    related (c.declare f ps) (d.declare f qs)
  label : ∀ {c d}, related c d → ∀ name ∈ labelMakers,
    r (.label (name c.nextId)) (.label (name d.nextId))
  test : ∀ {c d}, related c d → ∀ name ∈ labelMakers,
    r (.gotoUnless (.label (name c.nextId))) (.gotoUnless (.label (name d.nextId)))
  jump : ∀ {c d}, related c d → ∀ name ∈ labelMakers,
    r (.goto (.label (name c.nextId))) (.goto (.label (name d.nextId)))
  leaf : ∀ s ∈ within, s.isLeaf → ∀ {c ps c'}, Stmt.Lowers c [s] ps c' → ∀ d,
    ∃ qs, Stmt.Lowers d [onLeaf s] qs d ∧ List.Forall₂ r (flatten ps) (flatten qs)

namespace Stmt

/-- By induction on the outline: statements have corresponding code in related scopes, and leave
related scopes. -/
theorem Lowers.parallel {within : List Stmt} {onLeaf : Stmt → Stmt} {r : Instr → Instr → Prop}
    {related : Scope → Scope → Prop} (H : Correspondence within onLeaf r related)
    (h : Lowers c ss ps c') (hss : Every (· ∈ within) ss) (hd : related c d) :
    ∃ qs d', Lowers d (replaceAll id onLeaf ss) qs d' ∧
      List.Forall₂ r (flatten ps) (flatten qs) ∧ related c' d' := by
  have hif : ifLabel ∈ labelMakers := by simp [labelMakers]
  have hcont : contLabel ∈ labelMakers := by simp [labelMakers]
  have hwhile : whileLabel ∈ labelMakers := by simp [labelMakers]
  have hleaf {s : Stmt} {c d : Scope} {ps : List Piece} (hs : s.isLeaf) (hl : Lowers c [s] ps c)
      (hss : Every (· ∈ within) [s]) (hd : related c d) :
      ∃ qs d', Lowers d (replaceAll id onLeaf [s]) qs d' ∧
        List.Forall₂ r (flatten ps) (flatten qs) ∧ related c d' := by
    obtain ⟨qs, hq, hcode⟩ := H.leaf s hss.head hs hl d
    exact ⟨qs, d, by simpa [replace_of_isLeaf hs] using hq, hcode, hd⟩
  induction h generalizing d with
  | nil => exact ⟨[], d, by simpa using .nil, by simp, hd⟩
  | cons _ _ ih ih' =>
    obtain ⟨hs, hrest⟩ := every_cons.mp hss
    obtain ⟨ps', d₁, hp, hcode, hd₁⟩ := ih hs hd
    obtain ⟨qs', d₂, hq, hcode', hd₂⟩ := ih' hrest hd₁
    rw [replaceAll_cons] at hq
    refine ⟨ps' ++ qs', d₂, ?_, by simpa using List.rel_append hcode hcode', hd₂⟩
    simpa using Lowers.cons (by simpa using hp) hq
  | block _ ih =>
    obtain ⟨qs, d', hq, h⟩ := ih (every_block.mp hss).2 hd
    exact ⟨qs, d', by simpa [replace] using .block hq, h⟩
  | expr h =>
    obtain ⟨qs, hq, hcode⟩ := h.parallel H.plain (H.functions hd)
    exact ⟨qs, d, by simpa [replace] using .expr hq, hcode, hd⟩
  | print h =>
    obtain ⟨qs, hq, hcode⟩ := h.parallel H.plain (H.functions hd)
    refine ⟨_, d, by simpa [replace] using .print hq, ?_, hd⟩
    simpa using List.rel_append hcode (.cons (H.plain (.printFlush Machine.message) trivial) .nil)
  | draw h => exact hleaf rfl (.draw h) hss hd
  | drawFlush => exact hleaf rfl .drawFlush hss hd
  | asm h => exact hleaf rfl (.asm h) hss hd
  | label => exact hleaf rfl .label hss hd
  | goto => exact hleaf rfl .goto hss hd
  | function hb _ ih =>
    obtain ⟨qs, d', hq, hcode, hd'⟩ := ih ((every_function hb).mp hss).2 hd
    exact ⟨[], _, by simpa [replace] using .function (Body.statements?_replace hb) hq, by simp,
      H.declare hd' _ hcode⟩
  | @ifThen c c' cond body ss ps qs hc hb _ ih =>
    obtain ⟨ps', hp, hcond⟩ := hc.parallel H.plain (H.functions hd)
    obtain ⟨qs', d', hq, hcode, hd'⟩ := ih ((every_ifThen hb).mp hss).2 (H.next hd)
    refine ⟨_, d', by simpa [replace] using .ifThen hp (Body.statements?_replace hb) hq, ?_, hd'⟩
    simpa using List.rel_append hcond (.cons (H.test hd _ hif)
      (List.rel_append hcode (.cons (H.label hd _ hif) .nil)))
  | @ifElse c c₁ c₂ cond body body' ss ss' ps qs qs' hc hb hb' _ _ ih ih' =>
    obtain ⟨-, hss, hss'⟩ := (every_ifElse hb hb').mp hss
    obtain ⟨rs, hp, hcond⟩ := hc.parallel H.plain (H.functions hd)
    obtain ⟨ts, d₁, hq, hcode, hd₁⟩ := ih hss (H.next hd)
    obtain ⟨ts', d₂, hq', hcode', hd₂⟩ := ih' hss' hd₁
    have hl := Lowers.ifElse hp (Body.statements?_replace hb) (Body.statements?_replace hb') hq hq'
    refine ⟨_, d₂, by simpa [replace] using hl, ?_, hd₂⟩
    simpa using List.rel_append hcond (.cons (H.test hd _ hif) (List.rel_append hcode
      (.cons (H.jump hd _ hcont) (.cons (H.label hd _ hif)
        (List.rel_append hcode' (.cons (H.label hd _ hcont) .nil))))))
  | @whileDo c c' cond body ss ps qs hc hb _ ih =>
    obtain ⟨ps', hp, hcond⟩ := hc.parallel H.plain (H.functions hd)
    obtain ⟨qs', d', hq, hcode, hd'⟩ := ih ((every_whileDo hb).mp hss).2 (H.next hd)
    refine ⟨_, d', by simpa [replace] using .whileDo hp (Body.statements?_replace hb) hq, ?_, hd'⟩
    simpa using List.Forall₂.cons (H.label hd _ hwhile) (List.rel_append hcond
      (.cons (H.test hd _ hcont) (List.rel_append hcode
        (.cons (H.jump hd _ hwhile) (.cons (H.label hd _ hcont) .nil)))))

end Stmt

end LogicAsm
