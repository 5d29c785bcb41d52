import LogicAsm.Proofs.Computation
import LogicAsm.Proofs.Outline

/-!
# Code of expressions

Running the code of an expression straight through computes it: the variables that a program can see
are as computed, and the value is at its destination if it can be found. The stack pointer is as
before, and of the memory bank only the cells from there on change that saved values need
(`Expr.Lowers.reaches`).
-/

namespace LogicAsm

open Piece (flatten own)

/-! ## Kept parts of a state -/

/-- The number of values that are saved at the same time while an expression is computed. -/
def Expr.spill : Expr → Nat
  | paren e | unary _ e | assign _ e | update _ _ e => e.spill
  | binary _ l r =>
    match l.atom?, r.atom? with
    | none, none => max l.spill (1 + r.spill)
    | _, _ => max l.spill r.spill
  | literal _ | name _ | bare _ | call _ | sensor _ _ | foreign _ => 0

/-- The stack pointer, the trace and all cells of the memory banks but `d` of them from `n` on are
as before. -/
structure Kept (n d : Nat) (s s' : State V) : Prop where
  stackPtr : s'.vars Machine.stackPtr = s.vars Machine.stackPtr
  bank : ∀ b k, (b = Machine.memoryBank → k < n ∨ n + d ≤ k) → s'.bank b k = s.bank b k
  trace : s'.trace = s.trace

namespace Kept

variable {n d d' : Nat} {s s₁ : State V}

theorem refl : Kept n d s s :=
  ⟨rfl, fun _ _ _ => rfl, rfl⟩

theorem mono (h : Kept n d s s₁) (hd : d ≤ d') : Kept n d' s s₁ :=
  ⟨h.stackPtr, fun b k hk => h.bank b k fun hb => (hk hb).imp_right fun hk => by omega, h.trace⟩

theorem store (h : Kept n d s s₁) {x : String} (hx : x ≠ Machine.stackPtr) (v : V) :
    Kept n d s (s₁.store x v) := by
  refine ⟨?_, h.bank, h.trace⟩
  rw [State.store_vars, Function.update_of_ne hx.symm]
  exact h.stackPtr

end Kept

namespace Dest

/-- The variables after a value has been brought to its destination. -/
def store (dest : Dest) (vars : String → V) (v : V) : String → V :=
  match dest with
  | acc => vars
  | var x => Function.update vars x v

/-- A program can see the destination, if it is a variable. -/
def Visible (hidden : List String) (dest : Dest) : Prop := ∀ x, dest = var x → x ∉ hidden

theorem visible_acc (hidden : List String) : acc.Visible hidden := fun _ h => nomatch h

theorem visible_var {hidden : List String} {x : String} (hx : x ∉ hidden) :
    (var x).Visible hidden := by
  rintro _ ⟨⟩
  exact hx

theorem of_var_eq_acc_or {x : String} {p : Prop} (h : var x = acc ∨ p) : p :=
  h.resolve_left Dest.noConfusion

theorem operand_ne_stackPtr {hidden : List String} (hh : Scratch hidden) {dest : Dest}
    (h : dest.Visible hidden) : dest.operand ≠ Machine.stackPtr := by
  cases dest with
  | acc => exact Machine.acc_ne_stackPtr
  | var x =>
    rintro rfl
    exact h _ rfl hh.stackPtr

/-- A value that is brought to a variable is the right one; in the accumulator it may be any. -/
theorem agreeOff_store {hidden : List String} (hh : Scratch hidden) {dest : Dest} {s : State V}
    {vars : String → V} (h : AgreeOff hidden vars s.vars) {u v : V} (huv : dest = acc ∨ u = v) :
    AgreeOff hidden (dest.store vars v) (s.store dest.operand u).vars := by
  intro y hy
  cases dest with
  | acc =>
    have hne : y ≠ Machine.acc := fun he => hy (he ▸ hh.acc)
    rw [operand, State.store_vars, Function.update_of_ne hne]
    exact h y hy
  | var x =>
    obtain rfl := of_var_eq_acc_or huv
    rw [operand, State.store_vars, store, Function.update_apply, Function.update_apply, h y hy]

end Dest

/-! ## Saved values -/

/-- The state after the accumulator has been saved. -/
def State.pushed (E : Engine V) (s : State V) (n : Nat) : State V :=
  (s.poke Machine.memoryBank n (s.vars Machine.acc)).store Machine.stackPtr (E.nat (n + 1))

theorem Engine.execAll_pushCode (E : Engine V) {s : State V} {n : Nat}
    (hn : s.vars Machine.stackPtr = E.nat n) :
    E.execAll (pushCode Machine.acc) s = some (s.pushed E n) := by
  simp [pushCode, exec, hn, E.cell_nat, E.add_one, State.pushed]

/-- The state after the second register has been loaded. -/
def State.popped (E : Engine V) (s : State V) (n : Nat) : State V :=
  (s.store Machine.stackPtr (E.nat n)).store Machine.regB (s.bank Machine.memoryBank n)

theorem Engine.execAll_popCode (E : Engine V) {s : State V} {n : Nat}
    (hn : s.vars Machine.stackPtr = E.nat (n + 1)) :
    E.execAll (popCode Machine.regB) s = some (s.popped E n) := by
  simp [popCode, exec, hn, E.cell_nat, E.sub_one, State.popped]

/-- Code between the two keeps the saved value: it ends up in the second register, beside the value
in the accumulator. -/
theorem Engine.execAll_saved (E : Engine V) {s s₁ s₃ : State V} {n : Nat} {code code' : List Instr}
    (hs₁ : E.execAll code s = some s₁) (hn₁ : s₁.vars Machine.stackPtr = E.nat n)
    (hs₃ : E.execAll code' (s₁.pushed E n) = some s₃)
    (hn₃ : s₃.vars Machine.stackPtr = E.nat (n + 1))
    (hcell : s₃.bank Machine.memoryBank n = (s₁.pushed E n).bank Machine.memoryBank n) :
    E.execAll (code ++ pushCode Machine.acc ++ code' ++ popCode Machine.regB) s =
        some (s₃.popped E n) ∧
      (s₃.popped E n).vars Machine.regB = s₁.vars Machine.acc ∧
      (s₃.popped E n).vars Machine.acc = s₃.vars Machine.acc := by
  refine ⟨?_, ?_, ?_⟩
  · simp only [execAll_append, hs₁, E.execAll_pushCode hn₁, hs₃, E.execAll_popCode hn₃,
      Option.bind_some]
  · rw [State.popped, State.store_vars, Function.update_self, hcell]
    simp [State.pushed, State.poke_bank]
  · rw [State.popped, State.store_vars, Function.update_of_ne Machine.acc_ne_regB,
      State.store_vars, Function.update_of_ne Machine.acc_ne_stackPtr]

/-- What is computed while a value is saved lies above it, so the cells that are not its own are as
before once the value has been loaded. -/
theorem State.bank_popped {E : Engine V} {s s₁ s₃ : State V} {n d d' : Nat}
    (h₁ : ∀ b k, (b = Machine.memoryBank → k < n ∨ n + d ≤ k) → s₁.bank b k = s.bank b k)
    (h₃ : ∀ b k, (b = Machine.memoryBank → k < n + 1 ∨ n + 1 + d' ≤ k) →
      s₃.bank b k = (s₁.pushed E n).bank b k) (b : String) (k : Nat)
    (hk : b = Machine.memoryBank → k < n ∨ n + max d (1 + d') ≤ k) :
    (s₃.popped E n).bank b k = s.bank b k := by
  have hbank : (s₃.popped E n).bank b k = (s₁.pushed E n).bank b k :=
    h₃ b k fun hb => by have := hk hb; omega
  rw [hbank, ← h₁ b k fun hb => by have := hk hb; omega]
  by_cases hb : b = Machine.memoryBank
  · have hkn : k ≠ n := by have := hk hb; omega
    simp [State.pushed, State.poke_bank, hb, hkn]
  · simp [State.pushed, State.poke_bank, hb]

/-! ## States that code reaches -/

/-- Running `code` from `s` ends in a state that has `P`. It agrees with `vars` on all variables
that are not hidden, and keeps the rest. -/
def Reaches (E : Engine V) (hidden : List String) (n d : Nat) (code : List Instr) (s : State V)
    (vars : String → V) (P : State V → Prop) : Prop :=
  ∃ s', E.execAll code s = some s' ∧ P s' ∧ AgreeOff hidden vars s'.vars ∧ Kept n d s s'

namespace Reaches

variable {E : Engine V} {hidden : List String} {n d d' : Nat} {code code' : List Instr}
  {s : State V} {vars vars' : String → V} {P Q : State V → Prop} {dest : Dest} {used : Bool}
  {v w : V} {p : Prop}

theorem nil (h : AgreeOff hidden vars s.vars) :
    Reaches E hidden n d [] s vars fun _ => True :=
  ⟨s, rfl, trivial, h, .refl⟩

theorem mono (h : Reaches E hidden n d code s vars P) (hd : d ≤ d') (hP : ∀ s', P s' → Q s') :
    Reaches E hidden n d' code s vars Q := by
  obtain ⟨s', hs', hp, hvars, hk⟩ := h
  exact ⟨s', hs', hP s' hp, hvars, hk.mono hd⟩

/-- A value that has been brought to the accumulator is found there. -/
theorem operand (h : Reaches E hidden n d code s (Dest.acc.store vars v)
      fun s' => used = true → (Dest.acc = .acc ∨ p) → s'.vars Machine.acc = v) (hd : d ≤ d') :
    Reaches E hidden n d' code s vars fun s' => used = true → s'.vars Machine.acc = v :=
  h.mono hd fun _ h hu => h hu (.inl rfl)

/-- One more instruction, which brings a value to the destination. -/
theorem into (hh : Scratch hidden) (h : Reaches E hidden n d code s vars P)
    (hdest : dest.Visible hidden) (hused : dest = .acc ∨ used = true) (hp : p → dest = .acc)
    {i : Instr} (hi : ∀ s₁, P s₁ → AgreeOff hidden vars s₁.vars →
      ∃ u, E.exec i s₁ = some (s₁.store dest.operand u) ∧ (used = true → u = v)) :
    Reaches E hidden n d (code ++ [i]) s (dest.store vars v)
      fun s' => used = true → p → s'.vars Machine.acc = v := by
  obtain ⟨s₁, hs₁, hP, hvars, hk⟩ := h
  obtain ⟨u, hexec, huv⟩ := hi s₁ hP hvars
  refine ⟨s₁.store dest.operand u, ?_, ?_, Dest.agreeOff_store hh hvars (hused.imp_right huv),
    hk.store (Dest.operand_ne_stackPtr hh hdest) u⟩
  · rw [Engine.execAll_append, hs₁, Option.bind_some, Engine.execAll_cons, hexec]
    rfl
  · intro hu hacc
    rw [hp hacc, Dest.operand, State.store_vars, Function.update_self]
    exact huv hu

/-- The value in the accumulator is moved to the destination, and stays where it was. -/
theorem settle (hh : Scratch hidden)
    (h : Reaches E hidden n d code s vars fun s' => used = true → s'.vars Machine.acc = v)
    (hdest : dest.Visible hidden) (hused : dest = .acc ∨ used = true) :
    Reaches E hidden n d (code ++ flatten dest.settled) s (dest.store vars v)
      fun s' => used = true → p → s'.vars Machine.acc = v := by
  cases dest with
  | acc =>
    rw [Dest.settled, Piece.flatten_nil, List.append_nil]
    exact h.mono (Nat.le_refl d) fun _ h hu _ => h hu
  | var x =>
    obtain rfl := Dest.of_var_eq_acc_or hused
    obtain ⟨s₁, hs₁, hP, hvars, hk⟩ := h
    have hx : Machine.acc ≠ x := fun he => hdest x rfl (he ▸ hh.acc)
    have hacc : s₁.vars Machine.acc = v := hP rfl
    refine ⟨s₁.store x v, ?_, ?_, Dest.agreeOff_store hh hvars (.inr rfl),
      hk.store (Dest.operand_ne_stackPtr hh hdest) v⟩
    · rw [Engine.execAll_append, hs₁, Option.bind_some]
      simp [Dest.settled, Engine.exec, hacc]
    · intro _ _
      rw [State.store_vars, Function.update_of_ne hx]
      exact hacc

/-- One more instruction, which gives a variable a new value. Nothing is said of the accumulator. -/
theorem changes (hh : Scratch hidden) (h : Reaches E hidden n d code s vars P) {x : String}
    (hx : x ∉ hidden) {i : Instr} (hi : ∀ s₁, P s₁ → AgreeOff hidden vars s₁.vars →
      E.exec i s₁ = some (s₁.store x v)) :
    Reaches E hidden n d (code ++ [i]) s (Function.update vars x v)
      fun s' => false = true → p → s'.vars Machine.acc = v := by
  obtain ⟨s', hs', -, hvars, hk⟩ := h.into hh (Dest.visible_var hx) (.inr rfl) False.elim
    fun s₁ hP hs₁ => ⟨v, hi s₁ hP hs₁, fun _ => rfl⟩
  exact ⟨s', hs', nofun, hvars, hk⟩

/-- One more instruction, which brings a value to the accumulator. -/
theorem compute (hh : Scratch hidden) (h : Reaches E hidden n d code s vars P)
    (hdest : dest.Visible hidden) (hused : dest = .acc ∨ used = true) {i : Instr}
    (hi : ∀ s₁, P s₁ → AgreeOff hidden vars s₁.vars →
      ∃ u, E.exec i s₁ = some (s₁.store Machine.acc u) ∧ (used = true → u = v)) :
    Reaches E hidden n d (code ++ i :: flatten dest.settled) s (dest.store vars v)
      fun s' => used = true → p → s'.vars Machine.acc = v := by
  have h' : Reaches E hidden n d (code ++ [i]) s vars
      fun s' => used = true → True → s'.vars Machine.acc = v :=
    h.into hh (Dest.visible_acc hidden) (.inl rfl) (fun _ => rfl) hi
  rw [List.append_cons]
  exact (h'.mono (Nat.le_refl d) fun _ h hu => h hu trivial).settle hh hdest hused

/-- The value of the first code is saved while the second code is run. -/
theorem saved (hh : Scratch hidden) (hn : s.vars Machine.stackPtr = E.nat n)
    (h : Reaches E hidden n d code s vars fun s' => used = true → s'.vars Machine.acc = v)
    (h' : ∀ s₁, AgreeOff hidden vars s₁.vars → s₁.vars Machine.stackPtr = E.nat (n + 1) →
      Reaches E hidden (n + 1) d' code' s₁ vars' fun s' => used = true → s'.vars Machine.acc = w) :
    Reaches E hidden n (max d (1 + d'))
      (code ++ pushCode Machine.acc ++ code' ++ popCode Machine.regB) s vars'
      fun s' => used = true → s'.vars Machine.regB = v ∧ s'.vars Machine.acc = w := by
  obtain ⟨s₁, hs₁, hv, hvars, hk⟩ := h
  have hn₁ : s₁.vars Machine.stackPtr = E.nat n := hk.stackPtr.trans hn
  have hpushed : AgreeOff hidden vars (s₁.pushed E n).vars := by
    intro y hy
    have hne : y ≠ Machine.stackPtr := fun he => hy (he ▸ hh.stackPtr)
    rw [State.pushed, State.store_vars, Function.update_of_ne hne]
    exact hvars y hy
  have hn₂ : (s₁.pushed E n).vars Machine.stackPtr = E.nat (n + 1) := by simp [State.pushed]
  obtain ⟨s₃, hs₃, hw, hvars', hk'⟩ := h' _ hpushed hn₂
  obtain ⟨hrun, hregB, hacc⟩ := E.execAll_saved hs₁ hn₁ hs₃ (hk'.stackPtr.trans hn₂)
    (hk'.bank _ _ fun _ => .inl (Nat.lt_succ_self n))
  refine ⟨s₃.popped E n, hrun, fun hu => ⟨hregB.trans (hv hu), hacc.trans (hw hu)⟩, ?_, ?_,
    State.bank_popped hk.bank hk'.bank, hk'.trace.trans hk.trace⟩
  · intro y hy
    have hb : y ≠ Machine.regB := fun he => hy (he ▸ hh.regB)
    have hbp : y ≠ Machine.stackPtr := fun he => hy (he ▸ hh.stackPtr)
    rw [State.popped, State.store_vars, Function.update_of_ne hb, State.store_vars,
      Function.update_of_ne hbp]
    exact hvars' y hy
  · rw [State.popped, State.store_vars, Function.update_of_ne Machine.regB_ne_stackPtr.symm,
      State.store_vars, Function.update_self, hn]

end Reaches

/-! ## Expressions -/

theorem UnaryOp.exec_instr (E : Engine V) (op : UnaryOp) (arg : String) (s : State V) :
    E.exec (op.instr arg) s =
      some (s.store Machine.acc (op.apply E s.vars (E.value s.vars arg))) := by
  cases op <;> rfl

namespace Expr

variable {E : Engine V} {hidden : List String} {e : Expr}

theorem eq_acc_of_direct {dest : Dest} (he : e.direct = true)
    (h : dest = .acc ∨ e.direct = false) : dest = .acc := by
  simpa [he] using h

/-- By induction on the outline. The invariant is that the variables a program can see are those
that have been computed, whether or not the value is used; a value that is not used may be any. -/
theorem Lowers.reaches (hh : Scratch hidden) (hE : E.Blind hidden) {used : Bool}
    (h : e.Lowers functions dest ps) (he : e.Evaluable hidden) (hd : e.Delivers used)
    (hdest : dest.Visible hidden) (hused : dest = .acc ∨ used = true) {s : State V} {n : Nat}
    {vars vars' : String → V} {v : V} (hc : e.Computes E vars v vars')
    (hs : AgreeOff hidden vars s.vars) (hn : s.vars Machine.stackPtr = E.nat n) :
    Reaches E hidden n e.spill (flatten ps) s (dest.store vars' v)
      fun s' => used = true → (dest = .acc ∨ e.direct = false) → s'.vars Machine.acc = v := by
  induction h generalizing used n s v vars vars' with
  | @atom e text dest ha =>
    obtain ⟨rfl, rfl⟩ := hc.of_atom? ha
    refine (Reaches.nil hs).into hh hdest hused (eq_acc_of_direct (direct_of_atom? ha)) ?_
    intro s₁ _ hs₁
    exact ⟨_, rfl, fun _ => (E.value_congr (hs₁ _ (he.not_mem_of_atom? ha))).symm⟩
  | call => exact he.elim
  | paren _ ih =>
    cases hc with
    | atom ha => cases ha
    | paren hc =>
      rw [Piece.flatten_append]
      have h := ih he hd (Dest.visible_acc hidden) (.inl rfl) hc hs hn
      exact (h.operand (Nat.le_refl _)).settle hh hdest hused
  | @unaryAtom e text op dest ha =>
    have he : e.Evaluable hidden := he
    cases hc with
    | atom ha => cases ha
    | unary hc =>
      obtain ⟨rfl, rfl⟩ := hc.of_atom? ha
      rw [Piece.flatten_cons, Piece.code_own]
      refine (Reaches.nil hs).compute hh hdest hused ?_
      intro s₁ _ hs₁
      refine ⟨_, op.exec_instr E text s₁, fun _ => ?_⟩
      rw [op.apply_congr hh hs₁, E.value_congr (hs₁ _ (he.not_mem_of_atom? ha))]
  | @unary e ps op dest ha _ ih =>
    cases hc with
    | atom ha => cases ha
    | unary hc =>
      rw [Piece.flatten_append, Piece.flatten_cons, Piece.code_own]
      have h := ih he hd (Dest.visible_acc hidden) (.inl rfl) hc hs hn
      refine (h.operand (Nat.le_refl _)).compute hh hdest hused ?_
      intro s₁ hacc hs₁
      refine ⟨_, op.exec_instr E _ s₁, fun hu => ?_⟩
      rw [op.apply_congr hh hs₁, E.value_acc, hacc hu]
  | @binaryAtoms l left r right op dest hl hr =>
    cases hc with
    | atom ha => cases ha
    | binary hl' => cases hl.symm.trans hl'
    | binaryLate hl' hc =>
      cases hl.symm.trans hl'
      obtain ⟨rfl, rfl⟩ := hc.of_atom? hr
      refine (Reaches.nil hs).into hh hdest hused (eq_acc_of_direct rfl) ?_
      intro s₁ _ hs₁
      refine ⟨_, rfl, fun _ => ?_⟩
      rw [E.value_congr (hs₁ _ (he.1.not_mem_of_atom? hl)),
        E.value_congr (hs₁ _ (he.2.not_mem_of_atom? hr))]
  | @binaryRight l left r ps op dest hl hr _ ih =>
    have hspill : r.spill ≤ (Expr.binary (.binary op) l r).spill := by
      simp only [spill, hl]
      exact Nat.le_max_right ..
    cases hc with
    | atom ha => cases ha
    | binary hl' => cases hl.symm.trans hl'
    | binaryLate hl' hc =>
      cases hl.symm.trans hl'
      rw [Piece.flatten_append]
      have h := ih he.2 hd.2 (Dest.visible_acc hidden) (.inl rfl) hc hs hn
      refine (h.operand hspill).into hh hdest hused (eq_acc_of_direct rfl) ?_
      intro s₁ hacc hs₁
      refine ⟨_, rfl, fun hu => ?_⟩
      rw [E.value_acc, hacc hu, E.value_congr (hs₁ _ (he.1.not_mem_of_atom? hl))]
  | @binaryLeft l r right ps op dest hl hr _ ih =>
    have hspill : l.spill ≤ (Expr.binary (.binary op) l r).spill := by
      simp only [spill, hl, hr]
      exact Nat.le_max_left ..
    cases hc with
    | atom ha => cases ha
    | binaryLate hl' => cases hl.symm.trans hl'
    | binary hl' hc hc' =>
      obtain ⟨rfl, rfl⟩ := hc'.of_atom? hr
      rw [Piece.flatten_append]
      have h := ih he.1 hd.1 (Dest.visible_acc hidden) (.inl rfl) hc hs hn
      refine (h.operand hspill).into hh hdest hused (eq_acc_of_direct rfl) ?_
      intro s₁ hacc hs₁
      refine ⟨_, rfl, fun hu => ?_⟩
      rw [E.value_acc, hacc hu, E.value_congr (hs₁ _ (he.2.not_mem_of_atom? hr))]
  | @binary l r ps qs op dest hl hr _ _ ih ih' =>
    cases hc with
    | atom ha => cases ha
    | binaryLate hl' => cases hl.symm.trans hl'
    | @binary _ _ v₁ vars₁ _ w _ _ hl' hc hc' =>
      have h := ih he.1 hd.1 (Dest.visible_acc hidden) (.inl rfl) hc hs hn
      have h := (h.operand (Nat.le_refl _)).saved hh hn
        fun s₁ hs₁ hn₁ => (ih' he.2 hd.2 (Dest.visible_acc hidden) (.inl rfl) hc' hs₁ hn₁).operand
          (Nat.le_refl _)
      simp only [spill, hl, hr, Piece.flatten_append, Piece.flatten_map_own]
      refine h.into hh hdest hused (eq_acc_of_direct rfl) ?_
      intro s₁ hops hs₁
      refine ⟨_, rfl, fun hu => ?_⟩
      rw [E.value_acc, E.value_regB, (hops hu).1, (hops hu).2]
  | @assign e x ps dest _ ih =>
    cases hc with
    | atom ha => cases ha
    | assign hc =>
      rw [Piece.flatten_append]
      have h := ih he.2 hd.1 (Dest.visible_var he.1) (.inr rfl) hc hs hn
      have hfound := h.mono (Nat.le_refl _) fun s' h hu => h rfl (.inr (hd.2 hu))
      exact hfound.settle hh hdest hused
  | @updateAtom e text op x dest ha =>
    obtain ⟨-, rfl⟩ := hd
    obtain rfl := hused.resolve_right Bool.false_ne_true
    cases hc with
    | atom ha => cases ha
    | update hc hu =>
      obtain ⟨rfl, rfl⟩ := hc.of_atom? ha
      refine (Reaches.nil hs).changes hh he.1 ?_
      intro s₁ _ hs₁
      rw [hu, E.value_congr (hs₁ x he.1), E.value_congr (hs₁ _ (he.2.not_mem_of_atom? ha))]
      rfl
  | @update e ps op x dest ha _ ih =>
    obtain ⟨hd, rfl⟩ := hd
    obtain rfl := hused.resolve_right Bool.false_ne_true
    cases hc with
    | atom ha => cases ha
    | update hc hu =>
      rw [Piece.flatten_append, Piece.flatten_cons, Piece.code_own]
      have h := ih he.2 hd (Dest.visible_acc hidden) (.inl rfl) hc hs hn
      refine (h.operand (Nat.le_refl _)).changes hh he.1 ?_
      intro s₁ hacc hs₁
      rw [hu, E.value_congr (hs₁ x he.1), Engine.exec, E.value_acc, hacc rfl]
  | @sensor block attr dest =>
    cases hc with
    | atom ha => cases ha
    | sensor =>
      rw [Piece.flatten_cons, Piece.code_own]
      refine (Reaches.nil hs).compute hh hdest hused ?_
      intro s₁ _ hs₁
      exact ⟨_, rfl, fun _ => hE _ _ _ _ fun x hx => (hs₁ x hx).symm⟩

end Expr

end LogicAsm
