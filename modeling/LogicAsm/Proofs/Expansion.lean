import LogicAsm.Proofs.Replacement

/-!
# Expansion of functions

A program can be rid of its functions before it is lowered: declarations are dropped, and the
statements of a function, expanded themselves, take the place of each call (`Body.expand`). A call
means the last declaration before it in the text. The expanded program has the same code
(`codeOf_expand`), if calls stand alone and functions have no control structures: the labels of a
control structure in a function would be numbered once, but anew for each expanded call.
-/

namespace LogicAsm

open Piece (flatten own)

/-! ## Expanded programs -/

/-- The statements that stand for each declared function. -/
abbrev Bindings := String → Option (List Stmt)

mutual

/-- The statements that take the place of a statement, and the bindings behind it. -/
def Stmt.expand (env : Bindings) : Stmt → List Stmt × Bindings
  | .block ss =>
    let expanded := Stmt.expandAll env ss
    ([.block expanded.1], expanded.2)
  | .expr (.call f) =>
    match env f with
    | some ss => ([.block ss], env)
    | none => ([.expr (.call f)], env)
  | .function f body =>
    let expanded := body.expandIn env
    ([], Function.update expanded.2 f expanded.1.statements?)
  | .ifThen cond body =>
    let expanded := body.expandIn env
    ([.ifThen cond expanded.1], expanded.2)
  | .ifElse cond body body' =>
    let expanded := body.expandIn env
    let expanded' := body'.expandIn expanded.2
    ([.ifElse cond expanded.1 expanded'.1], expanded'.2)
  | .whileDo cond body =>
    let expanded := body.expandIn env
    ([.whileDo cond expanded.1], expanded.2)
  | s => ([s], env)

/-- Expand statements in order. -/
def Stmt.expandAll (env : Bindings) : List Stmt → List Stmt × Bindings
  | [] => ([], env)
  | s :: rest =>
    let expanded := s.expand env
    let expanded' := Stmt.expandAll expanded.2 rest
    (expanded.1 ++ expanded'.1, expanded'.2)

/-- Expand the statements of a body. -/
def Body.expandIn (env : Bindings) : Body → Body × Bindings
  | .block ss =>
    let expanded := Stmt.expandAll env ss
    (.block expanded.1, expanded.2)
  | .program ss =>
    let expanded := Stmt.expandAll env ss
    (.program expanded.1, expanded.2)
  | .foreign kind => (.foreign kind, env)

end

/-- A program without its functions. -/
def Body.expand (program : Body) : Body := (program.expandIn fun _ => none).1

namespace Stmt

theorem expandAll_nil (env : Bindings) : expandAll env [] = ([], env) := by rw [expandAll]

theorem expandAll_cons (env : Bindings) (s : Stmt) (rest : List Stmt) :
    expandAll env (s :: rest) =
      ((s.expand env).1 ++ (expandAll (s.expand env).2 rest).1,
        (expandAll (s.expand env).2 rest).2) := by
  rw [expandAll]

theorem expandAll_singleton (env : Bindings) (s : Stmt) : expandAll env [s] = s.expand env := by
  rw [expandAll_cons, expandAll_nil, List.append_nil]

theorem expand_expr {e : Expr} (he : ∀ f, e ≠ .call f) (env : Bindings) :
    (Stmt.expr e).expand env = ([.expr e], env) := by
  cases e with
  | call f => exact (he f rfl).elim
  | _ => rfl

end Stmt

theorem Body.expandIn_of_statements? {body : Body} (hb : body.statements? = some ss)
    (env : Bindings) :
    (body.expandIn env).1.statements? = some (Stmt.expandAll env ss).1 ∧
      (body.expandIn env).2 = (Stmt.expandAll env ss).2 := by
  cases body with
  | block | program => cases hb; rw [Body.expandIn]; exact ⟨rfl, rfl⟩
  | foreign => cases hb

/-! ## Statements without functions -/

namespace Stmt

/-- If a statement computes a call, it does nothing else. -/
def CallsAlone : Stmt → Prop
  | .expr (.call _) => True
  | s => s.CallFree

/-- A function has no control structures. -/
def StraightFunction : Stmt → Prop
  | .function _ body => ∀ s ∈ body.within, s.isStructure = false
  | _ => True

/-- A statement that neither declares a function nor calls one. -/
def FunctionFree : Stmt → Prop
  | .function .. => False
  | s => s.CallFree

theorem every_functionFree_of_isLeaf {s : Stmt} (h : s.isLeaf) : Every FunctionFree [s] := by
  have hs : s.FunctionFree := by
    cases s <;> simp_all [isLeaf, FunctionFree, CallFree, exprs]
  simpa [Every, within_of_isLeaf h] using hs

theorem CallsAlone.callFree {s : Stmt} (h : s.CallsAlone) (hs : ∀ f, s ≠ .expr (.call f)) :
    s.CallFree := by
  unfold CallsAlone at h
  split at h
  · exact (hs _ rfl).elim
  · exact h

theorem withinAll_append (ss ss' : List Stmt) :
    withinAll (ss ++ ss') = withinAll ss ++ withinAll ss' := by
  induction ss with
  | nil => simp
  | cons s ss ih => simp [ih]

theorem every_append {P : Stmt → Prop} {ss ss' : List Stmt} :
    Every P (ss ++ ss') ↔ Every P ss ∧ Every P ss' := by
  simp [Every, withinAll_append, or_imp, forall_and]

theorem every_nil {P : Stmt → Prop} : Every P [] := by simp [Every]

end Stmt

namespace Expr

/-- Without calls, the declared functions play no part. -/
theorem Lowers.of_calls {e : Expr} (h : e.Lowers functions dest ps) (hc : e.calls = [])
    (functions' : String → Option (List Piece)) : e.Lowers functions' dest ps := by
  induction h with
  | atom he => exact .atom he
  | call => cases hc
  | paren _ ih => exact .paren (ih hc)
  | unaryAtom he => exact .unaryAtom he
  | unary he _ ih => exact .unary he (ih hc)
  | binaryAtoms hl hr => exact .binaryAtoms hl hr
  | binaryRight hl hr _ ih => exact .binaryRight hl hr (ih (List.append_eq_nil_iff.mp hc).2)
  | binaryLeft hl hr _ ih => exact .binaryLeft hl hr (ih (List.append_eq_nil_iff.mp hc).1)
  | binary hl hr _ _ ih ih' =>
    obtain ⟨hcl, hcr⟩ := List.append_eq_nil_iff.mp hc
    exact .binary hl hr (ih hcl) (ih' hcr)
  | assign _ ih => exact .assign (ih hc)
  | updateAtom he => exact .updateAtom he
  | update he _ ih => exact .update he (ih hc)
  | sensor => exact .sensor

theorem LowersPrint.of_calls (h : LowersPrint functions args ps) (hc : ∀ e ∈ args, e.calls = [])
    (functions' : String → Option (List Piece)) : LowersPrint functions' args ps := by
  induction h with
  | nil => exact .nil
  | atom he _ ih =>
    rw [List.forall_mem_cons] at hc
    exact .atom he (ih hc.2)
  | computed he h _ ih =>
    rw [List.forall_mem_cons] at hc
    exact .computed he (h.of_calls hc.1 functions') (ih hc.2)

end Expr

namespace Stmt

theorem lowers_cons_iff {s : Stmt} {rest : List Stmt} :
    Lowers c (s :: rest) ps c' ↔
      ∃ qs qs' c₁, Lowers c [s] qs c₁ ∧ Lowers c₁ rest qs' c' ∧ ps = qs ++ qs' := by
  constructor
  · intro h
    cases rest with
    | nil => exact ⟨ps, [], c', h, .nil, by simp⟩
    | cons t rest =>
      cases h with
      | cons h h' => exact ⟨_, _, _, h, h', rfl⟩
  · rintro ⟨qs, qs', c₁, h, h', rfl⟩
    exact h.cons' h'

theorem Lowers.append {ss ss' : List Stmt} (h : Lowers c ss ps c₁) (h' : Lowers c₁ ss' qs c₂) :
    Lowers c (ss ++ ss') (ps ++ qs) c₂ := by
  induction ss generalizing c ps with
  | nil => cases h; exact h'
  | cons s ss ih =>
    obtain ⟨ps₁, ps₂, c₃, hs, hrest, rfl⟩ := lowers_cons_iff.mp h
    rw [List.append_assoc]
    exact hs.cons' (ih hrest)

/-- Code without functions, calls and control structures does not depend on the scope. -/
theorem Lowers.anywhere (h : Lowers c ss ps c') (hf : Every FunctionFree ss)
    (hs : Every (fun s => s.isStructure = false) ss) (d : Scope) : Lowers d ss ps d := by
  induction h generalizing d with
  | nil => exact .nil
  | cons _ _ ih ih' =>
    obtain ⟨hf, hf'⟩ := every_cons.mp hf
    obtain ⟨hs, hs'⟩ := every_cons.mp hs
    exact .cons (ih hf hs d) (ih' hf' hs' d)
  | block _ ih => exact .block (ih (every_block.mp hf).2 (every_block.mp hs).2 d)
  | expr h => exact .expr (h.of_calls (hf.head _ (by simp [exprs])) _)
  | print h => exact .print (h.of_calls hf.head _)
  | draw h => exact .draw h
  | drawFlush => exact .drawFlush
  | asm h => exact .asm h
  | function => exact hf.head.elim
  | ifThen | ifElse | whileDo => cases hs.head
  | label => exact .label
  | goto => exact .goto

end Stmt

/-! ## Code of expanded programs -/

/-- A scope without functions. -/
def Scope.bare (n : Nat) : Scope := { nextId := n }

/-- Each declared function is bound to statements that have its code, wherever they stand. -/
def Bindings.Bind (env : Bindings) (c : Scope) : Prop :=
  ∀ f body, c.functions f = some body → ∃ ss qs, env f = some ss ∧
    Stmt.Every Stmt.FunctionFree ss ∧ Stmt.Every (fun s => s.isStructure = false) ss ∧
    (∀ d, Stmt.Lowers d ss qs d) ∧ flatten qs = flatten body

/-- The statements `ss` with the code `ps` are expanded: the new statements have the same code in a
scope without functions, and each function that is left is bound. -/
structure Expansion (c : Scope) (ss : List Stmt) (ps : List Piece) (c' : Scope)
    (expanded : List Stmt × Bindings) : Prop where
  lowers : ∃ qs, Stmt.Lowers (.bare c.nextId) expanded.1 qs (.bare c'.nextId) ∧
    flatten qs = flatten ps
  functionFree : Stmt.Every Stmt.FunctionFree expanded.1
  straight : Stmt.Every (fun s => s.isStructure = false) ss →
    Stmt.Every (fun s => s.isStructure = false) expanded.1
  bind : expanded.2.Bind c'

namespace Expansion

/-- A statement that stays as it is. -/
theorem same {s : Stmt} (henv : env.Bind c)
    (hl : Stmt.Lowers (.bare c.nextId) [s] ps (.bare c.nextId))
    (hf : Stmt.Every Stmt.FunctionFree [s]) : Expansion c [s] ps c ([s], env) :=
  ⟨⟨ps, hl, rfl⟩, hf, fun h => h, henv⟩

theorem append {s : Stmt} {rest ss' ss'' : List Stmt} (h : Expansion c [s] ps c₁ (ss', env))
    (h' : Expansion c₁ rest qs c₂ (ss'', env')) :
    Expansion c (s :: rest) (ps ++ qs) c₂ (ss' ++ ss'', env') := by
  obtain ⟨ps', hp, hpflat⟩ := h.lowers
  obtain ⟨qs', hq, hqflat⟩ := h'.lowers
  refine ⟨⟨ps' ++ qs', hp.append hq, by simp [hpflat, hqflat]⟩, ?_, ?_, h'.bind⟩
  · exact Stmt.every_append.mpr ⟨h.functionFree, h'.functionFree⟩
  · intro hs
    obtain ⟨hs, hrest⟩ := Stmt.every_cons.mp hs
    exact Stmt.every_append.mpr ⟨h.straight hs, h'.straight hrest⟩

end Expansion

namespace Stmt

/-- By induction on the outline, with the bindings that are in force before it. -/
theorem Lowers.expansion (h : Lowers c ss ps c') (hcalls : Every CallsAlone ss)
    (hfun : Every StraightFunction ss) {env : Bindings} (henv : env.Bind c) :
    Expansion c ss ps c' (expandAll env ss) := by
  induction h generalizing env with
  | nil => exact ⟨⟨[], .nil, rfl⟩, every_nil, fun h => h, henv⟩
  | cons _ _ ih ih' =>
    obtain ⟨hcalls, hcalls'⟩ := every_cons.mp hcalls
    obtain ⟨hfun, hfun'⟩ := every_cons.mp hfun
    have h := ih hcalls hfun henv
    rw [expandAll_singleton] at h
    rw [expandAll_cons]
    exact h.append (ih' hcalls' hfun' h.bind)
  | block _ ih =>
    rw [expandAll_singleton, expand]
    have h := ih (every_block.mp hcalls).2 (every_block.mp hfun).2 henv
    obtain ⟨qs, hq, hflat⟩ := h.lowers
    refine ⟨⟨qs, .block hq, hflat⟩, every_block.mpr ⟨?_, h.functionFree⟩, ?_, h.bind⟩
    · simp [FunctionFree, CallFree, exprs]
    · intro hs
      exact every_block.mpr ⟨rfl, h.straight (every_block.mp hs).2⟩
  | @expr e ps c h =>
    by_cases he : ∃ f, e = .call f
    · obtain ⟨f, rfl⟩ := he
      cases h with
      | atom he => cases he
      | @call _ body _ hf =>
        obtain ⟨ss, qs, hbound, hfree, hstraight, hq, hflat⟩ := henv f body hf
        rw [expandAll_singleton, expand, hbound]
        refine ⟨⟨qs, .block (hq _), ?_⟩, every_block.mpr ⟨?_, hfree⟩, ?_, henv⟩
        · simp [hflat, Dest.settled]
        · simp [FunctionFree, CallFree, exprs]
        · intro _
          exact every_block.mpr ⟨rfl, hstraight⟩
    · rw [not_exists] at he
      have hfree := hcalls.head.callFree (by simpa using he)
      rw [expandAll_singleton, expand_expr he]
      refine .same henv (.expr (h.of_calls (hfree e (by simp [exprs])) _)) ?_
      simpa [Every, within, FunctionFree] using hfree
  | print h =>
    have hfree := hcalls.head.callFree (by simp)
    refine .same henv (.print (h.of_calls hfree _)) ?_
    simpa [Every, within, FunctionFree] using hfree
  | draw h => exact .same henv (.draw h) (every_functionFree_of_isLeaf rfl)
  | drawFlush => exact .same henv .drawFlush (every_functionFree_of_isLeaf rfl)
  | asm h => exact .same henv (.asm h) (every_functionFree_of_isLeaf rfl)
  | label => exact .same henv .label (every_functionFree_of_isLeaf rfl)
  | goto => exact .same henv .goto (every_functionFree_of_isLeaf rfl)
  | @function c c' f body ss ps hb hl ih =>
    have hstraight : Every (fun s => s.isStructure = false) ss := by
      have h := hfun.head
      rwa [StraightFunction, Body.within_of_statements? hb] at h
    have h := ih ((every_function hb).mp hcalls).2 ((every_function hb).mp hfun).2 henv
    obtain ⟨hb', henv'⟩ := Body.expandIn_of_statements? hb env
    obtain ⟨qs, hq, hflat⟩ := h.lowers
    -- Without control structures, the declaration takes no number that its expansion would not.
    have hid : c'.nextId = c.nextId := by
      rw [hl.nextId_eq, List.countP_eq_zero.mpr (by simpa [Every] using hstraight), Nat.add_zero]
    rw [expandAll_singleton, expand, henv', hb']
    refine ⟨⟨[], ?_, rfl⟩, every_nil, fun _ => every_nil, ?_⟩
    · rw [Scope.declare_nextId, hid]
      exact .nil
    · intro g body' hg
      rw [Scope.declare_functions, Function.update_apply] at hg
      simp only [Function.update_apply]
      split at hg
      · cases hg
        have hs := h.straight hstraight
        exact ⟨_, qs, if_pos ‹_›, h.functionFree, hs, hq.anywhere h.functionFree hs, hflat⟩
      · rw [if_neg ‹_›]
        exact h.bind g body' hg
  | @ifThen c c' cond body ss ps qs hc hb _ ih =>
    obtain ⟨hcond, hcalls⟩ := (every_ifThen hb).mp hcalls
    have h := ih hcalls ((every_ifThen hb).mp hfun).2 henv
    obtain ⟨hb', henv'⟩ := Body.expandIn_of_statements? hb env
    obtain ⟨qs', hq, hflat⟩ := h.lowers
    rw [expandAll_singleton, expand, henv']
    have hcond := hcond.callFree (by simp)
    refine ⟨⟨_, .ifThen (hc.of_calls (hcond cond (by simp [exprs])) _) hb' hq, ?_⟩, ?_, ?_, h.bind⟩
    · simp [hflat, Scope.bare]
    · exact (every_ifThen hb').mpr ⟨hcond, h.functionFree⟩
    · intro hs
      cases hs.head
  | @ifElse c c₁ c₂ cond body body' ss ss' ps qs qs' hc hb hb' _ _ ih ih' =>
    obtain ⟨hcond, hcalls, hcalls'⟩ := (every_ifElse hb hb').mp hcalls
    obtain ⟨-, hfun, hfun'⟩ := (every_ifElse hb hb').mp hfun
    have h := ih hcalls hfun henv
    have h' := ih' hcalls' hfun' h.bind
    obtain ⟨hbody, henv₁⟩ := Body.expandIn_of_statements? hb env
    obtain ⟨hbody', henv₂⟩ := Body.expandIn_of_statements? hb' (expandAll env ss).2
    obtain ⟨rs, hr, hflat⟩ := h.lowers
    obtain ⟨rs', hr', hflat'⟩ := h'.lowers
    have hcond := hcond.callFree (by simp)
    rw [expandAll_singleton, expand, henv₁, henv₂]
    refine ⟨⟨_, .ifElse (hc.of_calls (hcond cond (by simp [exprs])) _) hbody hbody' hr hr', ?_⟩, ?_,
      ?_, h'.bind⟩
    · simp [hflat, hflat', Scope.bare]
    · exact (every_ifElse hbody hbody').mpr ⟨hcond, h.functionFree, h'.functionFree⟩
    · intro hs
      cases hs.head
  | @whileDo c c' cond body ss ps qs hc hb _ ih =>
    obtain ⟨hcond, hcalls⟩ := (every_whileDo hb).mp hcalls
    have h := ih hcalls ((every_whileDo hb).mp hfun).2 henv
    obtain ⟨hbody, henv'⟩ := Body.expandIn_of_statements? hb env
    obtain ⟨rs, hr, hflat⟩ := h.lowers
    have hcond := hcond.callFree (by simp)
    rw [expandAll_singleton, expand, henv']
    refine ⟨⟨_, .whileDo (hc.of_calls (hcond cond (by simp [exprs])) _) hbody hr, ?_⟩, ?_, ?_,
      h.bind⟩
    · simp [hflat, Scope.bare]
    · exact (every_whileDo hbody).mpr ⟨hcond, h.functionFree⟩
    · intro hs
      cases hs.head

end Stmt

/-! ## Programs -/

/-- A program and its expansion have the same code. There are no functions left in the expansion:
each call is bound to the last declaration before it, also inside of functions, and a function that
is declared again means its new body from there on only. -/
theorem codeOf_expand {ss : List Stmt} {code : List Instr} (h : codeOf (.program ss) = .ok code)
    (hcalls : Stmt.Every Stmt.CallsAlone ss) (hfun : Stmt.Every Stmt.StraightFunction ss) :
    codeOf (Body.program ss).expand = .ok code ∧
      ∀ s ∈ (Body.program ss).expand.within, s.FunctionFree := by
  obtain ⟨_, ⟨_, ps, c', ⟨⟩, hl, rfl⟩, rfl⟩ := codeOf_eq_ok_iff.mp h
  have hnone : Bindings.Bind (fun _ => none) {} := fun _ _ hf => (nomatch hf)
  have hexp := hl.expansion hcalls hfun hnone
  obtain ⟨qs, hq, hflat⟩ := hexp.lowers
  rw [Body.expand, Body.expandIn, Body.within]
  exact ⟨codeOf_eq_ok_iff.mpr ⟨_, ⟨_, qs, _, rfl, hq, rfl⟩, by simp [hflat]⟩, hexp.functionFree⟩

/-- A function that calls another one, which is declared again before both are called. -/
def redeclared : List Stmt :=
  [.function "f" (.block [.expr (.assign "x" (.literal "1"))]),
    .function "g" (.block [.expr (.call "f"), .label "l"]),
    .function "f" (.block [.goto "l"]),
    .ifThen (.name "a") (.block [.expr (.call "g"), .expr (.call "f")])]

namespace redeclared

/-- Its code: the first function is called inside of the second one, the new one behind it. -/
def code : List Instr :=
  preamble ++ [.set Machine.acc "a", .gotoUnless (.label (ifLabel 0)), .set "x" "1", .label "l",
    .goto (.label "l"), .label (ifLabel 0), .halt]

/-- The program without functions. -/
def expanded : List Stmt :=
  [.ifThen (.name "a") (.block [
    .block [.block [.expr (.assign "x" (.literal "1"))], .label "l"], .block [.goto "l"]])]

theorem codeOf_eq : codeOf (.program redeclared) = .ok code :=
  codeOf_eq_ok_iff.mpr ⟨_, ⟨redeclared, _, _, rfl,
    .cons (.function rfl (.expr (.assign (.atom rfl))))
      (.cons (.function rfl (.cons (.expr (.call rfl)) .label))
        (.cons (.function rfl .goto)
          (.ifThen (.atom rfl) rfl (.cons (.expr (.call rfl)) (.expr (.call rfl)))))), rfl⟩, rfl⟩

theorem expand_eq : (Body.program redeclared).expand = .program expanded := rfl

end redeclared

/-- The function means its first body where another function calls it, and its second one later. -/
theorem codeOf_expand_redeclared :
    codeOf (.program redeclared) = .ok redeclared.code ∧
      codeOf (.program redeclared.expanded) = .ok redeclared.code := by
  have hcalls : Stmt.Every Stmt.CallsAlone redeclared := by
    simp [redeclared, Stmt.Every, Stmt.within, Body.within, Stmt.CallsAlone, Stmt.CallFree,
      Stmt.exprs, Expr.calls]
  have hfun : Stmt.Every Stmt.StraightFunction redeclared := by
    simp [redeclared, Stmt.Every, Stmt.within, Body.within, Stmt.StraightFunction,
      Stmt.isStructure]
  have h := codeOf_expand redeclared.codeOf_eq hcalls hfun
  exact ⟨redeclared.codeOf_eq, redeclared.expand_eq ▸ h.1⟩

end LogicAsm
