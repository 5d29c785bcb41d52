import LogicAsm.Proofs.Structured

/-!
# Compiled programs do what they mean

The machine follows a structured program: when the program is done, the machine is at the end of
its code, with the same variables and the same trace, and when a loop was cut after so many
rounds, the machine has run for at least so many steps, and has shown the same
(`Stmt.Lowers.realizes`). Since machines are deterministic, a machine that stops has followed a
program that is done (`semantic_preservation`).
-/

namespace LogicAsm

open Piece (flatten own)

variable {E : Engine V} {code linked pre post : List Instr} {w : World V} {s : State V}

theorem Outcome.andThen_done (o : Outcome V) : o.andThen .done = o := by
  cases o <;> rfl

/-! ## Machines that follow a program -/

/-- The state of a machine between two statements: it agrees with the world of the program, and
no value is saved. -/
structure Shows (E : Engine V) (w : World V) (s : State V) : Prop where
  vars : AgreeOff Machine.registers w.vars s.vars
  trace : s.trace = w.trace
  stackPtr : s.vars Machine.stackPtr = E.nat 0

/-- From `c`, linked code follows a run with the given outcome: it comes to the line `stop` in a
state that shows the same world, or, if the run was cut, it runs on for at least `m` steps and
shows the same trace. -/
def Follows (E : Engine V) (linked : List Instr) (m : Nat) (c : Config (State V)) (stop : Nat) :
    Outcome V → Prop
  | .done w => ∃ n s, E.interp.runLinked linked n c = some ⟨stop, s⟩ ∧ Shows E w s
  | .cut w =>
    ∃ n c', m ≤ n ∧ E.interp.runLinked linked n c = some c' ∧ c'.state.trace = w.trace
  | .undefined => False

namespace Follows

variable {m m' stop mid : Nat} {c c₁ : Config (State V)} {o : Outcome V}

theorem of_runLinked (h : E.interp.runLinked linked n c = some ⟨stop, s⟩) (hw : Shows E w s) :
    Follows E linked m c stop (.done w) :=
  ⟨n, s, h, hw⟩

/-- A machine that has come to the line already. -/
theorem of_eq {pos : Nat} (h : pos = stop) (hw : Shows E w s) :
    Follows E linked m ⟨pos, s⟩ stop (.done w) := by
  subst h
  exact .of_runLinked (n := 0) rfl hw

theorem mono (h : Follows E linked m c stop o) (hm : m' ≤ m) : Follows E linked m' c stop o := by
  cases o with
  | done w => exact h
  | cut w =>
    obtain ⟨n, c', hn, h⟩ := h
    exact ⟨n, c', Nat.le_trans hm hn, h⟩
  | undefined => exact h

/-- Steps before the code that follows count for a run that is cut. -/
theorem after (hr : E.interp.runLinked linked k c = some c₁) (h : Follows E linked m c₁ stop o) :
    Follows E linked (k + m) c stop o := by
  cases o with
  | done w =>
    obtain ⟨n, s, hn, hs⟩ := h
    exact ⟨k + n, s, Interp.runLinked_trans hr hn, hs⟩
  | cut w =>
    obtain ⟨n, c', hm, hn, ht⟩ := h
    exact ⟨k + n, c', by omega, Interp.runLinked_trans hr hn, ht⟩
  | undefined => exact h

theorem andThen {f : World V → Outcome V} (h : Follows E linked m c mid o)
    (hf : ∀ w s, Shows E w s → Follows E linked m ⟨mid, s⟩ stop (f w)) :
    Follows E linked m c stop (o.andThen f) := by
  cases o with
  | done w =>
    obtain ⟨n, s, hn, hs⟩ := h
    exact ((hf w s hs).after hn).mono (by omega)
  | cut w => exact h
  | undefined => exact h

end Follows

/-! ## Steps at code in its place -/

/-- An instruction with an effect is neither a label nor a jump. -/
theorem Engine.branch?_of_exec {i : Instr} (h : E.exec i s = some s') :
    i.isLabel = false ∧ i.branch? = none := by
  cases i with
  | jump | rawJump | label | halt | raw | foreign => cases h
  | _ => exact ⟨rfl, rfl⟩

/-- Code that runs straight through does so in its place. -/
theorem runLinked_of_execAll (hlink : link code = .ok linked) {is : List Instr}
    (hcode : code = pre ++ is ++ post) (h : E.execAll is s = some s') :
    ∃ n, E.interp.runLinked linked n ⟨lines pre, s⟩ = some ⟨lines (pre ++ is), s'⟩ := by
  induction is generalizing pre s with
  | nil =>
    cases h
    exact ⟨0, by simp [Interp.runLinked, Interp.iterate]⟩
  | cons i is ih =>
    rw [Engine.execAll_cons, Option.bind_eq_some_iff] at h
    obtain ⟨s₁, hi, h⟩ := h
    obtain ⟨hlabel, hb⟩ := Engine.branch?_of_exec hi
    have hhere : code = pre ++ i :: (is ++ post) := by simp [hcode]
    have hrest : code = (pre ++ [i]) ++ is ++ post := by simp [hcode]
    have hstep := Interp.stepLinked_of_exec (I := E.interp) hlink hhere hlabel hb hi
    rw [← Interp.runLinked_one] at hstep
    obtain ⟨n, hn⟩ := ih hrest h
    refine ⟨1 + n, ?_⟩
    simpa using Interp.runLinked_trans hstep hn

theorem not_mem_labelsOf_of_nodup (hnd : (labelsOf code).Nodup)
    (hcode : code = pre ++ .label name :: post) : name ∉ labelsOf post := by
  rw [hcode, labelsOf_append, labelsOf_cons_label] at hnd
  exact (List.nodup_cons.mp hnd.of_append_right).1

/-! ## Shown worlds -/

namespace Shows

/-- Code of an expression changes nothing but the variables. -/
theorem kept (hw : Shows E w s) {vars : String → V}
    (hvars : AgreeOff Machine.registers vars s'.vars) (hk : Kept 0 d s s') :
    Shows E { w with vars } s' :=
  ⟨hvars, hk.trace.trans hw.trace, hk.stackPtr.trans hw.stackPtr⟩

theorem display (hw : Shows E w s) (event : Event V) :
    Shows E (w.display event) (s.display event) :=
  ⟨hw.vars, by rw [State.display_trace, hw.trace]; rfl, hw.stackPtr⟩

theorem value_eq (hw : Shows E w s) {text : String} (ht : text ∉ Machine.registers) :
    E.value s.vars text = E.value w.vars text :=
  E.value_congr (hw.vars text ht).symm

end Shows

/-! ## Code of expressions in its place -/

namespace Expr

/-- A pure expression has its value, and its code brings that value to the accumulator. -/
theorem Lowers.shows (hE : E.Blind Machine.registers) {e : Expr} (h : e.Lowers functions .acc ps)
    (he : e.Pure Machine.registers) (hw : Shows E w s) :
    ∃ v s', e.eval E w.vars = some (v, w.vars) ∧ E.execAll (flatten ps) s = some s' ∧
      s'.vars Machine.acc = v ∧ Shows E w s' := by
  obtain ⟨v, hc, hv⟩ := he.exists_computes E w.vars
  obtain ⟨s', hs', hacc, hvars, hk⟩ := h.reaches Machine.scratch_registers hE he.evaluable
    (he.delivers true) (Dest.visible_acc _) (.inl rfl) hc hw.vars hw.stackPtr
  exact ⟨v, s', hv, hs', hacc rfl (.inl rfl), hw.kept hvars hk⟩

/-- The code of an expression that stands as a statement has the effect of the expression. -/
theorem Lowers.effect (hE : E.Blind Machine.registers) {e : Expr}
    (h : e.Lowers functions .acc ps) (he : e.Effect Machine.registers) (hw : Shows E w s) :
    ∃ v vars s', e.eval E w.vars = some (v, vars) ∧ E.execAll (flatten ps) s = some s' ∧
      Shows E { w with vars } s' := by
  obtain ⟨v, vars, hc⟩ := exists_computes E he.evaluable w.vars
  obtain ⟨s', hs', -, hvars, hk⟩ := h.reaches Machine.scratch_registers hE he.evaluable
    he.delivers (Dest.visible_acc _) (.inl rfl) hc hw.vars hw.stackPtr
  exact ⟨v, vars, s', hc.eval_eq he.ordered, hs', hw.kept hvars hk⟩

/-- The code of printed arguments prints their values. -/
theorem LowersPrint.prints (hE : E.Blind Machine.registers) (h : LowersPrint functions args ps)
    (he : ∀ e ∈ args, e.Pure Machine.registers) (hw : Shows E w s) :
    ∃ w' s', printAll E args w = some w' ∧ E.execAll (flatten ps) s = some s' ∧ Shows E w' s' := by
  induction h generalizing w s with
  | nil => exact ⟨w, s, rfl, by simp, hw⟩
  | @atom e text args ps ha _ ih =>
    rw [List.forall_mem_cons] at he
    have hv := eval_of_atom? E ha w.vars
    obtain ⟨w', s', hp, hs, hw'⟩ := ih he.2 (hw.display (.print (E.value w.vars text)))
    refine ⟨w', s', ?_, ?_, hw'⟩
    · rw [printAll, hv]
      exact hp
    · simpa [Engine.exec, hw.value_eq (he.1.evaluable.not_mem_of_atom? ha)] using hs
  | @computed e ps args qs ha h _ ih =>
    rw [List.forall_mem_cons] at he
    obtain ⟨v, s₁, hv, hs₁, hacc, hw₁⟩ := h.shows hE he.1 hw
    obtain ⟨w', s', hp, hs, hw'⟩ := ih he.2 (hw₁.display (.print v))
    refine ⟨w', s', ?_, ?_, hw'⟩
    · rw [printAll, hv]
      exact hp
    · simpa [Engine.execAll_append, hs₁, Engine.exec, hacc] using hs

end Expr

/-! ## Code in its place -/

/-- Wherever the instructions `is` stand in the code, the machine follows `run` on them. -/
def Realizes (E : Engine V) (code linked : List Instr) (m : Nat) (is : List Instr)
    (run : World V → Outcome V) : Prop :=
  ∀ pre post, code = pre ++ is ++ post → ∀ w s, Shows E w s →
    Follows E linked m ⟨lines pre, s⟩ (lines (pre ++ is)) (run w)

namespace Realizes

variable (hE : E.Blind Machine.registers) (hlink : link code = .ok linked)
  (hnd : (labelsOf code).Nodup) {m : Nat} {is is' : List Instr} {run run' : World V → Outcome V}

include hlink in
/-- Code that runs straight through. -/
theorem of_execAll (h : ∀ w s, Shows E w s →
      ∃ w' s', run w = .done w' ∧ E.execAll is s = some s' ∧ Shows E w' s') :
    Realizes E code linked m is run := by
  intro pre post hcode w s hw
  obtain ⟨w', s', hrun, hs, hw'⟩ := h w s hw
  obtain ⟨n, hn⟩ := runLinked_of_execAll hlink hcode hs
  rw [hrun]
  exact .of_runLinked hn hw'

theorem append (h : Realizes E code linked m is run) (h' : Realizes E code linked m is' run') :
    Realizes E code linked m (is ++ is') fun w => (run w).andThen run' := by
  intro pre post hcode w s hw
  have hfirst := h pre (is' ++ post) (by simp [hcode]) w s hw
  refine hfirst.andThen ?_
  intro w₁ s₁ hw₁
  have hsecond := h' (pre ++ is) post (by simp [hcode]) w₁ s₁ hw₁
  rwa [List.append_assoc] at hsecond

include hlink hnd in
/-- A jump that is always taken. -/
theorem follows_goto (hcode : code = pre ++ .goto (.label name) :: post)
    (hlabel : code = pre' ++ .label name :: post')
    (h : Follows E linked m ⟨lines pre', s⟩ stop o) : Follows E linked m ⟨lines pre, s⟩ stop o := by
  have hstep := Interp.stepLinked_of_label (I := E.interp) hlink hcode rfl hlabel
    (not_mem_labelsOf_of_nodup hnd hlabel) s
  have hholds : E.interp.holds (.test Machine.always Machine.null Machine.null) s = true :=
    E.holds_always _ _
  rw [hholds, ← Interp.runLinked_one] at hstep
  exact (h.after hstep).mono (Nat.le_add_left ..)

variable {test : Expr} {functions : String → Option (List Piece)} {ps : List Piece}
  (ht : test.Lowers functions .acc ps) (hpure : test.Pure Machine.registers)

include hE hlink hnd ht hpure in
/-- The test of a condition takes at least one step. The machine goes on behind the test, or at
the label. -/
theorem follows_branch (hcode : code = pre ++ flatten ps ++ .gotoUnless (.label name) :: post)
    (hlabel : code = pre' ++ .label name :: post') (hw : Shows E w s)
    {yes no : World V → Outcome V}
    (hyes : ∀ s, Shows E w s → Follows E linked m
      ⟨lines (pre ++ flatten ps ++ [.gotoUnless (.label name)]), s⟩ stop (yes w))
    (hno : ∀ s, Shows E w s → Follows E linked m ⟨lines pre', s⟩ stop (no w)) :
    Follows E linked (m + 1) ⟨lines pre, s⟩ stop (test.branch E yes no w) := by
  obtain ⟨v, s₁, hv, hs₁, hacc, hw₁⟩ := ht.shows hE hpure hw
  obtain ⟨n, hn⟩ := runLinked_of_execAll hlink hcode hs₁
  have hstep := Interp.stepLinked_of_label (I := E.interp) hlink hcode rfl hlabel
    (not_mem_labelsOf_of_nodup hnd hlabel) s₁
  have hholds :
      E.interp.holds (.test "equal" Machine.acc "0") s₁ = E.holds "equal" v (E.nat 0) := by
    simp [Engine.interp, hacc]
  rw [hholds, ← Interp.runLinked_one] at hstep
  have hrun := Interp.runLinked_trans hn hstep
  rw [Expr.branch, hv]
  cases htruth : E.holds "equal" v (E.nat 0) with
  | true =>
    rw [htruth] at hrun
    simp only [Engine.truth, htruth]
    exact ((hno s₁ hw₁).after hrun).mono (by omega)
  | false =>
    rw [htruth] at hrun
    simp only [Engine.truth, htruth]
    exact ((hyes s₁ hw₁).after hrun).mono (by omega)

include hE hlink hnd ht hpure in
theorem ifThen (h : Realizes E code linked m is run) (name : String) :
    Realizes E code linked m
      (flatten ps ++ .gotoUnless (.label name) :: is ++ [.label name])
      (test.branch E run .done) := by
  intro pre post hcode w s hw
  have htest : code = pre ++ flatten ps ++ .gotoUnless (.label name) ::
      (is ++ .label name :: post) := by simp [hcode]
  have hbody : code = (pre ++ flatten ps ++ [.gotoUnless (.label name)]) ++ is ++
      .label name :: post := by simp [hcode]
  refine (follows_branch hE hlink hnd ht hpure htest hbody hw ?_ ?_).mono (Nat.le_succ m)
  · intro s hw
    simpa [Nat.add_assoc] using h _ _ hbody w s hw
  · intro s hw
    exact .of_eq (by simp) hw

include hE hlink hnd ht hpure in
theorem ifElse (h : Realizes E code linked m is run) (h' : Realizes E code linked m is' run')
    (name name' : String) :
    Realizes E code linked m
      (flatten ps ++ .gotoUnless (.label name) :: is ++
        .goto (.label name') :: .label name :: is' ++ [.label name'])
      (test.branch E run run') := by
  intro pre post hcode w s hw
  have htest : code = pre ++ flatten ps ++ .gotoUnless (.label name) ::
      (is ++ .goto (.label name') :: .label name :: is' ++ .label name' :: post) := by simp [hcode]
  have hthen : code = (pre ++ flatten ps ++ [.gotoUnless (.label name)]) ++ is ++
      (.goto (.label name') :: .label name :: is' ++ .label name' :: post) := by simp [hcode]
  have hlabel : code = (pre ++ flatten ps ++ .gotoUnless (.label name) :: is ++
      [.goto (.label name')]) ++ .label name :: (is' ++ .label name' :: post) := by simp [hcode]
  have helse : code = (pre ++ flatten ps ++ .gotoUnless (.label name) :: is ++
      [.goto (.label name'), .label name]) ++ is' ++ .label name' :: post := by simp [hcode]
  refine (follows_branch hE hlink hnd ht hpure htest hlabel hw ?_ ?_).mono (Nat.le_succ m)
  · intro s hw
    rw [← Outcome.andThen_done (run w)]
    refine (h _ _ hthen w s hw).andThen ?_
    intro w s hw
    exact follows_goto hlink hnd hthen helse (.of_eq (by simp [Nat.add_assoc]) hw)
  · intro s hw
    simpa [Nat.add_assoc] using h' _ _ helse w s hw

include hE hlink hnd ht hpure in
/-- By induction on the number of rounds, each of which takes at least one step. -/
theorem whileDo (h : Realizes E code linked m is run) (name name' : String) :
    Realizes E code linked m
      (.label name :: flatten ps ++ .gotoUnless (.label name') :: is ++
        [.goto (.label name), .label name'])
      (test.loop E run m) := by
  intro pre post hcode w s hw
  have hstart : code = pre ++ .label name ::
      (flatten ps ++ .gotoUnless (.label name') :: is ++
        .goto (.label name) :: .label name' :: post) := by simp [hcode]
  have htest : code = (pre ++ [.label name]) ++ flatten ps ++ .gotoUnless (.label name') ::
      (is ++ .goto (.label name) :: .label name' :: post) := by simp [hcode]
  have hbody : code = (pre ++ [.label name] ++ flatten ps ++ [.gotoUnless (.label name')]) ++ is ++
      .goto (.label name) :: .label name' :: post := by simp [hcode]
  have hstop : code = (pre ++ [.label name] ++ flatten ps ++ .gotoUnless (.label name') :: is ++
      [.goto (.label name)]) ++ .label name' :: post := by simp [hcode]
  have hhead : lines (pre ++ [.label name]) = lines pre := by simp
  suffices hrounds : ∀ k ≤ m, ∀ w s, Shows E w s →
      Follows E linked k ⟨lines pre, s⟩ (lines (pre ++ (.label name :: flatten ps ++
        .gotoUnless (.label name') :: is ++ [.goto (.label name), .label name'])))
        (test.loop E run k w) from hrounds m (Nat.le_refl m) w s hw
  intro k
  induction k with
  | zero =>
    intro _ w s hw
    exact ⟨0, _, Nat.le_refl 0, rfl, hw.trace⟩
  | succ k ih =>
    intro hk w s hw
    rw [Expr.loop, ← hhead]
    refine follows_branch hE hlink hnd ht hpure htest hstop hw ?_ ?_
    · intro s hw
      refine ((h _ _ hbody w s hw).mono (by omega)).andThen ?_
      intro w s hw
      exact follows_goto hlink hnd hbody hstart (ih (by omega) w s hw)
    · intro s hw
      exact .of_eq (by simp [Nat.add_assoc]) hw

end Realizes

/-! ## Statements -/

theorem Body.exec_of_statements? {body : Body} (hb : body.statements? = some ss) :
    body.exec E bound = Stmt.execAll E bound ss := by
  cases body with
  | block | program =>
    cases hb
    funext w
    rw [Body.exec]
  | foreign => cases hb

namespace Stmt

theorem execAll_singleton (E : Engine V) (bound : Nat) (s : Stmt) :
    execAll E bound [s] = s.exec E bound := by
  funext w
  rw [execAll]
  cases s.exec E bound w <;> simp [Outcome.andThen, execAll]

/-- Code of structured statements realizes them, by induction on the outline. -/
theorem Lowers.realizes (hE : E.Blind Machine.registers) (hlink : link code = .ok linked)
    (hnd : (labelsOf code).Nodup) (h : Lowers c ss ps c') (hs : Every Structured ss) (bound : Nat) :
    Realizes E code linked bound (flatten ps) (execAll E bound ss) := by
  induction h with
  | nil =>
    refine .of_execAll hlink fun w s hw => ⟨w, s, ?_, by simp, hw⟩
    rw [execAll]
  | @cons c c₁ c₂ t u rest ps qs _ _ ih ih' =>
    obtain ⟨ht, hrest⟩ := every_cons.mp hs
    have h := (ih ht).append (ih' hrest)
    rw [execAll_singleton] at h
    simpa [execAll] using h
  | block _ ih =>
    rw [execAll_singleton]
    simpa [exec] using ih (every_block.mp hs).2
  | expr h =>
    rw [execAll_singleton]
    refine .of_execAll hlink ?_
    intro w s hw
    obtain ⟨v, vars, s', hv, hs', hw'⟩ := h.effect hE hs.head hw
    refine ⟨_, s', ?_, hs', hw'⟩
    rw [exec, hv]
    rfl
  | print h =>
    rw [execAll_singleton]
    refine .of_execAll hlink ?_
    intro w s hw
    obtain ⟨w', s', hp, hs', hw'⟩ := h.prints hE hs.head hw
    refine ⟨_, _, ?_, ?_, hw'.display (.printFlush Machine.message)⟩
    · rw [exec, hp]
      rfl
    · simp [Engine.execAll_append, hs', Engine.exec]
  | draw h =>
    rw [execAll_singleton]
    obtain ⟨shape, texts, ht, hd, hn⟩ := Expr.exists_drawing hs.head.1 hs.head.2
    cases h.symm.trans hd
    refine .of_execAll hlink ?_
    intro w s hw
    have hargs : texts.map (E.value s.vars) = texts.map (E.value w.vars) :=
      List.map_congr_left fun text hm => hw.value_eq (hn text hm)
    refine ⟨_, _, ?_, ?_, hw.display (.draw shape (texts.map (E.value w.vars)))⟩
    · rw [exec, Expr.drawAll, ht]
      rfl
    · simp [Engine.exec, hargs]
  | drawFlush =>
    rw [execAll_singleton]
    refine .of_execAll hlink ?_
    intro w s hw
    exact ⟨_, _, by rw [exec], by simp [Engine.exec], hw.display (.drawFlush Machine.display)⟩
  | asm | function | label | goto => exact hs.head.elim
  | @ifThen c c' test body ss ps qs hc hb _ ih =>
    obtain ⟨hself, hbody⟩ := (every_ifThen hb).mp hs
    rw [execAll_singleton]
    have h := Realizes.ifThen hE hlink hnd hc hself.1 (ih hbody) (ifLabel c.nextId)
    rw [← Body.exec_of_statements? hb] at h
    simpa [exec] using h
  | @ifElse c c₁ c₂ test body body' ss ss' ps qs qs' hc hb hb' _ _ ih ih' =>
    obtain ⟨hself, hbody, hbody'⟩ := (every_ifElse hb hb').mp hs
    rw [execAll_singleton]
    have h := Realizes.ifElse hE hlink hnd hc hself.1 (ih hbody) (ih' hbody')
      (ifLabel c.nextId) (contLabel c.nextId)
    rw [← Body.exec_of_statements? hb, ← Body.exec_of_statements? hb'] at h
    simpa [exec] using h
  | @whileDo c c' test body ss ps qs hc hb _ ih =>
    obtain ⟨hself, hbody⟩ := (every_whileDo hb).mp hs
    rw [execAll_singleton]
    have h := Realizes.whileDo hE hlink hnd hc hself.1 (ih hbody) (whileLabel c.nextId)
      (contLabel c.nextId)
    rw [← Body.exec_of_statements? hb] at h
    simpa [exec] using h

end Stmt

/-! ## Programs -/

/-- Code that clears variables. -/
theorem Engine.exists_execAll_clear (E : Engine V) (rs : List String) (s : State V) :
    ∃ s', E.execAll (rs.map (.set · "0")) s = some s' ∧ s'.trace = s.trace ∧
      (∀ x, x ∉ rs → s'.vars x = s.vars x) ∧ ∀ r ∈ rs, s'.vars r = E.nat 0 := by
  induction rs generalizing s with
  | nil => exact ⟨s, rfl, rfl, fun _ _ => rfl, by simp⟩
  | cons r rs ih =>
    obtain ⟨s', hs, htrace, hkeep, hclear⟩ := ih (s.store r (E.nat 0))
    refine ⟨s', ?_, htrace, ?_, ?_⟩
    · simpa [Engine.exec] using hs
    · intro x hx
      rw [List.mem_cons, not_or] at hx
      rw [hkeep x hx.2, State.store_vars, Function.update_of_ne hx.1]
    · intro x hx
      by_cases hrs : x ∈ rs
      · exact hclear x hrs
      · obtain rfl := (List.mem_cons.mp hx).resolve_right hrs
        rw [hkeep x hrs, State.store_vars, Function.update_self]

theorem Engine.exists_execAll_preamble (E : Engine V) (s : State V) :
    ∃ s', E.execAll preamble s = some s' ∧ Shows E s.toWorld s' := by
  obtain ⟨s', hs, htrace, hkeep, hclear⟩ := E.exists_execAll_clear Machine.registers s
  exact ⟨s', hs, fun x hx => (hkeep x hx).symm, htrace, hclear _ (by decide)⟩

/-- Structured programs compile, and the compiled program does what the program means. For every
engine and every state that the machine starts in:
if the program is done, the machine halts, with the same variables and the same trace;
if the machine stops, it has halted, and the program is done with these variables and this trace;
if a loop of the program is cut after some rounds, the machine runs for at least so many steps,
and has shown the same when it has come there;
and the program never lacks a meaning. -/
theorem semantic_preservation (hE : E.Blind Machine.registers) {ss : List Stmt}
    (hs : Stmt.Every Stmt.Structured ss) :
    ∃ code linked, codeOf (.program ss) = .ok code ∧ link code = .ok linked ∧
      ∀ s : State V,
        (∀ bound w, Stmt.execAll E bound ss s.toWorld = .done w →
          ∃ n c, E.interp.runLinked linked n ⟨0, s⟩ = some c ∧ linked[c.pos]? = some .halt ∧
            AgreeOff Machine.registers w.vars c.state.vars ∧ c.state.trace = w.trace) ∧
        (∀ n c, E.interp.runLinked linked n ⟨0, s⟩ = some c → E.interp.stepLinked linked c = none →
          linked[c.pos]? = some .halt ∧
          ∃ w, (∀ bound, n < bound → Stmt.execAll E bound ss s.toWorld = .done w) ∧
            AgreeOff Machine.registers w.vars c.state.vars ∧ c.state.trace = w.trace) ∧
        (∀ bound w, Stmt.execAll E bound ss s.toWorld = .cut w →
          ∃ n c, bound ≤ n ∧ E.interp.runLinked linked n ⟨0, s⟩ = some c ∧
            c.state.trace = w.trace) ∧
        ∀ bound, Stmt.execAll E bound ss s.toWorld ≠ .undefined := by
  obtain ⟨qs, c', linked, hl, hcode, hlink, hnd⟩ := exists_code_of_structured hs
  refine ⟨_, linked, hcode, hlink, ?_⟩
  intro s
  let stop := lines (preamble ++ flatten qs)
  have hhalt : linked[stop]? = some .halt := by
    obtain ⟨j, hj, hat⟩ := getElem?_of_link hlink rfl rfl
    cases hj
    exact hat
  have hstuck (s : State V) : E.interp.stepLinked linked ⟨stop, s⟩ = none := by
    simp [Interp.stepLinked, Interp.step, hhalt, Instr.branch?, Engine.interp, Engine.exec]
  have hfollows (bound : Nat) :
      Follows E linked bound ⟨0, s⟩ stop (Stmt.execAll E bound ss s.toWorld) := by
    obtain ⟨s₀, hs₀, hw⟩ := E.exists_execAll_preamble s
    have hstart : preamble ++ flatten qs ++ [.halt] = [] ++ preamble ++ (flatten qs ++ [.halt]) :=
      List.append_assoc ..
    obtain ⟨n, hn⟩ := runLinked_of_execAll hlink hstart hs₀
    have h := hl.realizes hE hlink hnd hs bound preamble [.halt] rfl _ _ hw
    exact (h.after hn).mono (Nat.le_add_left ..)
  refine ⟨?_, ?_, ?_, ?_⟩
  · intro bound w hdone
    have h := hfollows bound
    rw [hdone] at h
    obtain ⟨n, s', hn, hw⟩ := h
    exact ⟨n, _, hn, hhalt, hw.vars, hw.trace⟩
  · intro n c hn hstop
    have h := hfollows (n + 1)
    cases ho : Stmt.execAll E (n + 1) ss s.toWorld with
    | done w =>
      rw [ho] at h
      obtain ⟨n', s', hn', hw⟩ := h
      cases Interp.eq_of_stepLinked_eq_none hn hstop hn' (hstuck s')
      refine ⟨hhalt, w, ?_, hw.vars, hw.trace⟩
      intro bound hb
      exact Stmt.execAll_mono hb ss s.toWorld w ho
    | cut w =>
      rw [ho] at h
      obtain ⟨n', c', hlt, hn', -⟩ := h
      have := Interp.le_of_stepLinked_eq_none hn hstop hn'
      omega
    | undefined =>
      rw [ho] at h
      exact h.elim
  · intro bound w hcut
    have h := hfollows bound
    rw [hcut] at h
    exact h
  · intro bound hundef
    have h := hfollows bound
    rw [hundef] at h
    exact h

/-- An engine with whole numbers, some of their literals and some operations. -/
def Engine.integers : Engine Int where
  literal text :=
    match text with
    | "0" => some 0
    | "1" => some 1
    | "2" => some 2
    | _ => none
  apply mnemonic v w :=
    match mnemonic with
    | "add" => v + w
    | "sub" => v - w
    | "lessThan" => if v < w then 1 else 0
    | _ => 0
  holds mnemonic v w := mnemonic == Machine.always || mnemonic == "equal" && v == w
  sensor _ _ _ := 0
  nat n := n
  cell v := v.toNat
  cell_nat _ := rfl
  literal_register := by decide
  literal_zero := rfl
  literal_one := rfl
  add_one _ := rfl
  sub_one n := by simp
  holds_always _ _ := rfl

/-- A loop with a branch inside: `x` goes from 0 to 2, and is printed unless it is 0. -/
def countUp : List Stmt :=
  [.expr (.assign "x" (.literal "0")),
    .whileDo (.binary (.binary .lt) (.name "x") (.literal "2"))
      (.block [.ifThen (.name "x") (.block [.print [.paren (.name "x")]]),
        .expr (.update (.update .add) "x" (.literal "1"))])]

theorem semantic_preservation_countUp :
    ∃ code linked, codeOf (.program countUp) = .ok code ∧ link code = .ok linked ∧
      ∃ n c,
        Engine.integers.interp.runLinked linked n ⟨0, ⟨⟨fun _ => 7, []⟩, fun _ _ => 7⟩⟩ = some c ∧
        linked[c.pos]? = some .halt ∧ c.state.vars "x" = 2 ∧
        c.state.trace = [.print 1, .printFlush Machine.message] := by
  have hs : Stmt.Every Stmt.Structured countUp := by
    have hname : "x" ∉ Machine.registers := by decide
    have hnumbers : ∀ text ∈ ["0", "1", "2"], text ∉ Machine.registers := by decide
    simp only [List.forall_mem_cons] at hnumbers
    simp [Stmt.Every, countUp, Stmt.within, Body.within, Stmt.Structured, Body.statements?,
      Expr.Effect, Expr.Pure, hname, hnumbers]
  obtain ⟨code, linked, hcode, hlink, h⟩ :=
    semantic_preservation (E := .integers) (fun _ _ _ _ _ => rfl) hs
  refine ⟨code, linked, hcode, hlink, ?_⟩
  obtain ⟨n, c, hn, hhalt, hvars, htrace⟩ := (h ⟨⟨fun _ => 7, []⟩, fun _ _ => 7⟩).1 3 _ rfl
  exact ⟨n, c, hn, hhalt, (hvars "x" (by decide)).symm, htrace⟩

end LogicAsm
