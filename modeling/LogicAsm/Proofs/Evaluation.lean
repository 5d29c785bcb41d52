import LogicAsm.Proofs.Expansion
import LogicAsm.Proofs.Numbers
import LogicAsm.Proofs.Preservation

/-!
# Values of expressions

The code of a pure expression brings its value to the accumulator, and changes nothing else that a
program can see (`pure_code_stores_value`). The value of an expression with assignments and updates
in it ends up there, too, if it can be found (`value_in_accumulator`). An assignment leaves its
value in the accumulator only if the value has come that way. Where it has not, whatever takes its
operand from the accumulator finds another value there (`chained_assignment_loses_value`).
-/

namespace LogicAsm

open Piece (flatten)

/-! ## Code of single expressions -/

/-- The registers that the code of expressions works with. -/
def Machine.working : List String := [acc, regB, stackPtr]

theorem Machine.scratch_working : Scratch working := by
  constructor <;> decide

namespace Expr

/-- Every generator lowers the expression, and appends this code. -/
def HasCode (e : Expr) (code : List Instr) : Prop :=
  ∀ g : Generator, e.lower.run g = .ok () { g with code := g.code ++ code }

theorem Lowers.hasCode {e : Expr} (h : e.Lowers functions .acc ps) (hc : e.calls = []) :
    e.HasCode (flatten ps) :=
  fun g => (h.of_calls hc g.scope.functions).run g.scope_describes

/-- Running the code of `e` from any state, the variables that a program can see are as computed,
and the value is in the accumulator if it is used. -/
theorem Evaluable.exists_hasCode {E : Engine V} (hE : E.Blind Machine.working) {e : Expr}
    (he : e.Evaluable Machine.working) (hd : e.Delivers used) :
    ∃ code, e.HasCode code ∧ ∀ s n vars v, s.vars Machine.stackPtr = E.nat n →
      e.Computes E s.vars v vars → ∃ s', E.execAll code s = some s' ∧
        (used = true → s'.vars Machine.acc = v) ∧ AgreeOff Machine.working vars s'.vars ∧
        Kept n e.spill s s' := by
  obtain ⟨ps, h⟩ := he.exists_lowers (fun _ => none) .acc
  refine ⟨flatten ps, h.hasCode he.calls_eq_nil, ?_⟩
  intro s n vars v hn hc
  obtain ⟨s', hs', hacc, hvars, hk⟩ := h.reaches Machine.scratch_working hE he hd
    (Dest.visible_acc _) (.inl rfl) hc (fun _ _ => rfl) hn
  exact ⟨s', hs', fun hu => hacc hu (.inl rfl), hvars, hk⟩

end Expr

/-! ## Pure expressions -/

/-- What code that brings a value to `x` leaves alone: every other variable than the registers it
works with, every cell of a memory bank but `d` of them from `n` on, and the trace. -/
structure Framed (x : String) (n d : Nat) (s s' : State V) : Prop where
  vars : ∀ y, y ≠ Machine.acc → y ≠ Machine.regB → y ≠ x → s'.vars y = s.vars y
  bank : ∀ b k, (b = Machine.memoryBank → k < n ∨ n + d ≤ k) → s'.bank b k = s.bank b k
  trace : s'.trace = s.trace

theorem Kept.framed (hk : Kept n d s s')
    (h : ∀ y, y ∉ Machine.working → y ≠ x → s'.vars y = s.vars y) : Framed x n d s s' := by
  refine ⟨?_, hk.bank, hk.trace⟩
  intro y ha hb hx
  by_cases hy : y = Machine.stackPtr
  · rw [hy, hk.stackPtr]
  · exact h y (by simp [Machine.working, ha, hb, hy]) hx

namespace Expr

/-- Running the code of `e` from any state brings a value to `x`. The stack pointer and all other
variables are as before, the two registers apart, and so are all cells of the memory bank but `d` of
them from the stack pointer on. -/
def Stores (E : Engine V) (e : Expr) (x : String) (d : Nat) (value : (String → V) → Option V) :
    Prop :=
  ∃ code, e.HasCode code ∧ ∀ s n, s.vars Machine.stackPtr = E.nat n →
    ∃ v s', value s.vars = some v ∧ E.execAll code s = some s' ∧ s'.vars x = v ∧
      s'.vars Machine.stackPtr = E.nat n ∧ Framed x n d s s'

/-- The value of an expression. -/
def value? (E : Engine V) (e : Expr) (vars : String → V) : Option V :=
  (e.eval E vars).map Prod.fst

variable {E : Engine V} {e : Expr}

theorem Pure.exists_value (E : Engine V) (he : e.Pure Machine.working) (vars : String → V) :
    ∃ v, e.value? E vars = some v ∧ e.Computes E vars v vars := by
  obtain ⟨v, hc, hv⟩ := he.exists_computes E vars
  refine ⟨v, ?_, hc⟩
  rw [value?, hv]
  rfl

theorem Pure.stores (hE : E.Blind Machine.working) (he : e.Pure Machine.working) :
    e.Stores E Machine.acc e.spill (e.value? E) := by
  obtain ⟨code, hcode, hrun⟩ := he.evaluable.exists_hasCode hE (he.delivers true)
  refine ⟨code, hcode, ?_⟩
  intro s n hn
  obtain ⟨v, hv, hc⟩ := he.exists_value E s.vars
  obtain ⟨s', hs', hacc, hvars, hk⟩ := hrun s n _ v hn hc
  exact ⟨v, s', hv, hs', hacc rfl, hk.stackPtr.trans hn,
    hk.framed fun y hy _ => (hvars y hy).symm⟩

/-- An expression that assigns one variable stores a value there. -/
theorem Evaluable.stores (hE : E.Blind Machine.working) (he : e.Evaluable Machine.working)
    (hd : e.Delivers false) {x : String} (hx : x ∉ Machine.working)
    {value : (String → V) → Option V} (hvalue : ∀ vars, ∃ v, value vars = some v ∧
      e.Computes E vars v (Function.update vars x v)) : e.Stores E x e.spill value := by
  obtain ⟨code, hcode, hrun⟩ := he.exists_hasCode hE hd
  refine ⟨code, hcode, ?_⟩
  intro s n hn
  obtain ⟨v, hv, hc⟩ := hvalue s.vars
  obtain ⟨s', hs', -, hvars, hk⟩ := hrun s n _ v hn hc
  refine ⟨v, s', hv, hs', ?_, hk.stackPtr.trans hn, hk.framed ?_⟩
  · rw [← hvars x hx, Function.update_self]
  · intro y hy hne
    rw [← hvars y hy, Function.update_of_ne hne]

end Expr

/-- The code of a pure expression brings its value to the accumulator, and keeps all the rest. The
code of an assignment brings it to the variable, and the code of an update brings the changed value
there. -/
theorem pure_code_stores_value {E : Engine V} (hE : E.Blind Machine.working) {e : Expr}
    (he : e.Pure Machine.working) :
    e.Stores E Machine.acc e.spill (e.value? E) ∧
      (∀ x ∉ Machine.working, (Expr.assign x e).Stores E x e.spill (e.value? E)) ∧
      ∀ op, ∀ x ∉ Machine.working, (Expr.update (.update op) x e).Stores E x e.spill
        fun vars => (e.value? E vars).map (E.apply op.mnemonic (E.value vars x)) := by
  refine ⟨he.stores hE, ?_, ?_⟩
  · intro x hx
    have heval : (Expr.assign x e).Evaluable Machine.working := ⟨hx, he.evaluable⟩
    have hd : (Expr.assign x e).Delivers false := ⟨he.delivers true, nofun⟩
    refine heval.stores hE hd hx fun vars => ?_
    obtain ⟨v, hv, hc⟩ := he.exists_value E vars
    exact ⟨v, hv, .assign hc⟩
  · intro op x hx
    have heval : (Expr.update (.update op) x e).Evaluable Machine.working := ⟨hx, he.evaluable⟩
    have hd : (Expr.update (.update op) x e).Delivers false := ⟨he.delivers true, rfl⟩
    refine heval.stores hE hd hx fun vars => ?_
    obtain ⟨v, hv, hc⟩ := he.exists_value E vars
    exact ⟨_, by rw [hv]; rfl, .update hc rfl⟩

theorem Engine.blind_integers (hidden : List String) : Engine.integers.Blind hidden :=
  fun _ _ _ _ _ => rfl

/-- A state with 7 in every variable, and in each cell its own number. -/
def State.sevens : State Int := ⟨⟨fun _ => 7, []⟩, fun _ k => k⟩

/-- A sum of sums, whose left one is saved in cell 7: `(x + y) + (1 + (x))`. -/
def sumOfSums : Expr :=
  .binary (.binary .add) (.binary (.binary .add) (.name "x") (.name "y"))
    (.binary (.binary .add) (.literal "1") (.paren (.name "x")))

theorem pure_code_stores_value_sumOfSums :
    sumOfSums.Pure Machine.working ∧ sumOfSums.spill = 1 ∧
      (∃ code s', sumOfSums.HasCode code ∧
        Engine.integers.execAll code State.sevens = some s' ∧ s'.vars Machine.acc = 22 ∧
        s'.vars "x" = 7 ∧ s'.vars Machine.stackPtr = 7 ∧
        s'.bank Machine.memoryBank 6 = 6 ∧ s'.bank Machine.memoryBank 8 = 8) ∧
      (∃ code s', (Expr.assign "x" sumOfSums).HasCode code ∧
        Engine.integers.execAll code State.sevens = some s' ∧ s'.vars "x" = 22 ∧
        s'.vars "y" = 7) ∧
      ∃ code s', (Expr.update (.update .sub) "x" sumOfSums).HasCode code ∧
        Engine.integers.execAll code State.sevens = some s' ∧ s'.vars "x" = -15 ∧
        s'.vars "y" = 7 := by
  have hnames : ∀ text ∈ ["x", "y", "1"], text ∉ Machine.working := by decide
  have hpure : sumOfSums.Pure Machine.working :=
    ⟨⟨hnames _ (by simp), hnames _ (by simp)⟩, hnames _ (by simp), hnames _ (by simp)⟩
  have hx : "x" ∉ Machine.working := hnames _ (by simp)
  have hvalue : sumOfSums.value? Engine.integers State.sevens.vars = some 22 := by rfl
  have hspill : sumOfSums.spill = 1 := by rfl
  obtain ⟨hplain, hassign, hupdate⟩ :=
    pure_code_stores_value (Engine.blind_integers Machine.working) hpure
  refine ⟨hpure, hspill, ?_, ?_, ?_⟩
  · obtain ⟨code, hcode, hrun⟩ := hplain
    obtain ⟨v, s', hv, hs', hacc, hbp, hf⟩ := hrun State.sevens 7 rfl
    rw [hvalue, Option.some_inj] at hv
    rw [hspill] at hf
    refine ⟨code, s', hcode, hs', hacc.trans hv.symm, hf.vars _ (by decide) (by decide) (by decide),
      hbp, hf.bank _ 6 (by simp), hf.bank _ 8 (by simp)⟩
  · obtain ⟨code, hcode, hrun⟩ := hassign "x" hx
    obtain ⟨v, s', hv, hs', hacc, hbp, hf⟩ := hrun State.sevens 7 rfl
    rw [hvalue, Option.some_inj] at hv
    exact ⟨code, s', hcode, hs', hacc.trans hv.symm,
      hf.vars _ (by decide) (by decide) (by decide)⟩
  · obtain ⟨code, hcode, hrun⟩ := hupdate .sub "x" hx
    obtain ⟨v, s', hv, hs', hacc, hbp, hf⟩ := hrun State.sevens 7 rfl
    simp only [hvalue, Option.map_some, Option.some_inj] at hv
    exact ⟨code, s', hcode, hs', hacc.trans hv.symm,
      hf.vars _ (by decide) (by decide) (by decide)⟩

/-! ## Expressions with effects -/

/-- The value of an expression ends up in the accumulator if it can be found, and the variables
that a program can see are as computed. If no atom is read after it has been assigned, value and
variables are those of an evaluation from left to right. -/
theorem value_in_accumulator {E : Engine V} (hE : E.Blind Machine.working) {e : Expr}
    (he : e.Evaluable Machine.working) (hd : e.Delivers true) :
    ∃ code, e.HasCode code ∧ ∀ s n, s.vars Machine.stackPtr = E.nat n →
      ∃ v vars s', e.Computes E s.vars v vars ∧ (e.Ordered → e.eval E s.vars = some (v, vars)) ∧
        E.execAll code s = some s' ∧ s'.vars Machine.acc = v ∧
        AgreeOff Machine.working vars s'.vars ∧ Kept n e.spill s s' := by
  obtain ⟨code, hcode, hrun⟩ := he.exists_hasCode hE hd
  refine ⟨code, hcode, ?_⟩
  intro s n hn
  obtain ⟨v, vars, hc⟩ := Expr.exists_computes E he s.vars
  obtain ⟨s', hs', hacc, hvars, hk⟩ := hrun s n vars v hn hc
  exact ⟨v, vars, s', hc, hc.eval_eq, hs', hacc rfl, hvars, hk⟩

/-- Two assigned operands, whose values have come by way of the accumulator:
`(x = (1)) + (x + (y = (2)))`. -/
def sumOfAssigned : Expr :=
  .binary (.binary .add) (.assign "x" (.paren (.literal "1")))
    (.binary (.binary .add) (.name "x") (.assign "y" (.paren (.literal "2"))))

theorem value_in_accumulator_sumOfAssigned :
    sumOfAssigned.Evaluable Machine.working ∧ sumOfAssigned.Delivers true ∧
      ∃ code s', sumOfAssigned.HasCode code ∧
        Engine.integers.execAll code State.sevens = some s' ∧ s'.vars Machine.acc = 4 ∧
        s'.vars "x" = 1 ∧ s'.vars "y" = 2 ∧ s'.vars Machine.stackPtr = 7 := by
  have hnames : ∀ text ∈ ["x", "y", "1", "2"], text ∉ Machine.working := by decide
  have he : sumOfAssigned.Evaluable Machine.working :=
    ⟨⟨hnames _ (by simp), hnames _ (by simp)⟩, hnames _ (by simp), hnames _ (by simp),
      hnames _ (by simp)⟩
  have hd : sumOfAssigned.Delivers true := ⟨⟨trivial, fun _ => rfl⟩, trivial, trivial, fun _ => rfl⟩
  have ho : sumOfAssigned.Ordered :=
    ⟨trivial, ⟨trivial, trivial, by rintro _ ⟨⟩; decide⟩, nofun⟩
  obtain ⟨code, hcode, hrun⟩ := value_in_accumulator (Engine.blind_integers Machine.working) he hd
  obtain ⟨v, vars, s', -, hv, hs', hacc, hvars, hk⟩ := hrun State.sevens 7 rfl
  cases hv ho
  exact ⟨he, hd, code, s', hcode, hs', hacc, (hvars _ (hnames _ (by simp))).symm,
    (hvars _ (hnames _ (by simp))).symm, hk.stackPtr⟩

/-- The value of `x = y = 1` is 1. Its code gives `y` that value, and `x` whatever the accumulator
holds, as the inner assignment has not gone through it. -/
theorem chained_assignment_loses_value :
    (Expr.assign "x" (.assign "y" (.literal "1"))).HasCode
        [.set "y" "1", .set "x" Machine.acc] ∧
      (Expr.assign "x" (.assign "y" (.literal "1"))).value? Engine.integers State.sevens.vars =
        some 1 ∧
      ∃ s', Engine.integers.execAll [.set "y" "1", .set "x" Machine.acc] State.sevens = some s' ∧
        s'.vars "y" = 1 ∧ s'.vars "x" = 7 ∧ s'.vars Machine.acc = 7 := by
  have h : (Expr.assign "x" (.assign "y" (.literal "1"))).Lowers (fun _ => none) .acc _ :=
    .assign (.assign (.atom rfl))
  exact ⟨by simpa [Dest.settled, Dest.operand] using h.hasCode rfl, rfl, _, rfl, rfl, rfl, rfl⟩

end LogicAsm
