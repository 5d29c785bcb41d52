import LogicAsm.Proofs.Evaluation

/-!
# Folded atoms

An atom that is an operand takes no code. In parentheses it is loaded like any other operand. A
program cannot tell the two apart (`folding_invisible`), as long as every value that is assigned can
be found, and no atom that goes into one is assigned between the point where it is loaded and the
point where it is read. Both conditions are needed (`folding_visible`).
-/

namespace LogicAsm

namespace Expr

/-- `e.Wraps asOperand e'`: `e'` is `e` with some of the atoms in parentheses that are operands. The
expression may itself be one of them if it stands `asOperand`. -/
inductive Wraps : (asOperand : Bool) → Expr → Expr → Prop where
  | refl : Wraps asOperand e e
  | atom (ha : atom? e = some text) : Wraps true e (.paren e)
  | paren (h : Wraps false e e') : Wraps asOperand (.paren e) (.paren e')
  | unary (h : Wraps true e e') : Wraps asOperand (.unary op e) (.unary op e')
  | binary (hl : Wraps true l l') (hr : Wraps true r r') :
      Wraps asOperand (.binary op l r) (.binary op l' r')
  | assign (h : Wraps true e e') : Wraps asOperand (.assign x e) (.assign x e')
  | update (h : Wraps true e e') : Wraps asOperand (.update op x e) (.update op x e')

/-- No atom that is in parentheses in the second expression only, on the left of an operation with a
used result, is assigned on the right of it. -/
def Undisturbed : Bool → Expr → Expr → Prop
  | used, paren e, paren e' | used, unary _ e, unary _ e' => Undisturbed used e e'
  | used, binary _ l r, binary _ l' r' =>
    Undisturbed used l l' ∧ Undisturbed used r r' ∧
      (used = true → l'.atom? = none → ∀ text, l.atom? = some text → text ∉ r.assigned)
  | _, assign _ e, assign _ e' | _, update _ _ e, update _ _ e' => Undisturbed true e e'
  | _, _, _ => True

namespace Wraps

variable {asOperand used : Bool} {e e' : Expr} {hidden : List String}

theorem evaluable (h : e.Wraps asOperand e') (he : e.Evaluable hidden) : e'.Evaluable hidden := by
  induction h with
  | refl | atom => exact he
  | paren _ ih => exact ih he
  | @unary _ _ _ slot _ ih =>
    cases slot with
    | unary op => exact ih he
    | _ => exact he.elim
  | @binary _ _ _ _ _ slot _ _ ihl ihr =>
    cases slot with
    | binary op => exact ⟨ihl he.1, ihr he.2⟩
    | _ => exact he.elim
  | assign _ ih => exact ⟨he.1, ih he.2⟩
  | @update _ _ _ slot _ _ ih =>
    cases slot with
    | update op => exact ⟨he.1, ih he.2⟩
    | _ => exact he.elim

theorem direct (h : e.Wraps asOperand e') (he : e.direct = false) : e'.direct = false := by
  cases h with
  | refl => exact he
  | atom ha => rfl
  | binary => cases he
  | paren | unary | assign | update => rfl

/-- A value in parentheses goes by way of the accumulator, so no value is lost. -/
theorem delivers (h : e.Wraps asOperand e') (hd : e.Delivers used) : e'.Delivers used := by
  induction h generalizing used with
  | refl | atom => exact hd
  | paren _ ih | unary _ ih => exact ih hd
  | binary _ _ ihl ihr => exact ⟨ihl hd.1, ihr hd.2⟩
  | assign h ih => exact ⟨ih hd.1, fun hu => h.direct (hd.2 hu)⟩
  | update _ ih => exact ⟨ih hd.1, hd.2⟩

theorem of_atom? (h : e.Wraps asOperand e') (ha : e.atom? = some text) :
    e' = e ∨ e' = .paren e := by
  cases h with
  | refl => exact .inl rfl
  | atom => exact .inr rfl
  | _ => cases ha

theorem atom?_eq_none (h : e.Wraps asOperand e') (ha : e.atom? = none) : e'.atom? = none := by
  cases h with
  | refl => exact ha
  | _ => rfl

/-- By induction on the wrapping. The same variables are assigned the same values; only a value that
is not used may be another one. -/
theorem exists_computes {E : Engine V} (h : e.Wraps asOperand e') (hu : Undisturbed used e e')
    {vars vars' : String → V} {v : V} (hc : e.Computes E vars v vars') :
    ∃ v', e'.Computes E vars v' vars' ∧ (used = true → v' = v) := by
  induction h generalizing used vars vars' v with
  | refl => exact ⟨v, hc, fun _ => rfl⟩
  | atom => exact ⟨v, .paren hc, fun _ => rfl⟩
  | paren _ ih =>
    cases hc with
    | atom ha => cases ha
    | paren hc =>
      obtain ⟨v', hc', hv⟩ := ih hu hc
      exact ⟨v', .paren hc', hv⟩
  | unary _ ih =>
    cases hc with
    | atom ha => cases ha
    | unary hc =>
      obtain ⟨v', hc', hv⟩ := ih hu hc
      exact ⟨_, .unary hc', fun hused => by rw [hv hused]⟩
  | @binary l l' r r' _ _ hl _ ihl ihr =>
    obtain ⟨hul, hur, hlate⟩ := hu
    cases hc with
    | atom ha => cases ha
    | @binaryLate _ left _ _ _ _ _ ha hc =>
      obtain ⟨w', hc', hw⟩ := ihr hur hc
      rcases hl.of_atom? ha with rfl | rfl
      · exact ⟨_, .binaryLate ha hc', fun hused => by rw [hw hused]⟩
      · refine ⟨_, .binary rfl (.paren (.atom ha)) hc', fun hused => ?_⟩
        -- The atom is now read before the operand on its right is computed.
        have hleft := hc.eq_of_not_mem_assigned (hlate hused rfl left ha)
        rw [hw hused, E.value_congr hleft]
    | binary ha hc hc' =>
      obtain ⟨v', hv', hv⟩ := ihl hul hc
      obtain ⟨w', hw', hw⟩ := ihr hur hc'
      exact ⟨_, .binary (hl.atom?_eq_none ha) hv' hw', fun hused => by rw [hv hused, hw hused]⟩
  | assign _ ih =>
    cases hc with
    | atom ha => cases ha
    | assign hc =>
      obtain ⟨v', hc', hv⟩ := ih hu hc
      cases hv rfl
      exact ⟨_, .assign hc', fun _ => rfl⟩
  | update _ ih =>
    cases hc with
    | atom ha => cases ha
    | update hc hval =>
      obtain ⟨v', hc', hv⟩ := ih hu hc
      cases hv rfl
      exact ⟨_, .update hc' hval, fun _ => rfl⟩

end Wraps

end Expr

/-- Wrapping atoms in parentheses changes the code of an expression, but no variable other than the
registers that code of expressions works with. -/
theorem folding_invisible {E : Engine V} (hE : E.Blind Machine.working) {e e' : Expr}
    (he : e.Evaluable Machine.working) (hw : e.Wraps false e') (hd : e.Delivers false)
    (hu : Expr.Undisturbed false e e') :
    ∃ code code', e.HasCode code ∧ e'.HasCode code' ∧
      ∀ s n, s.vars Machine.stackPtr = E.nat n →
        ∃ t t', E.execAll code s = some t ∧ E.execAll code' s = some t' ∧
          (∀ x, x ≠ Machine.acc → x ≠ Machine.regB → t.vars x = t'.vars x) ∧
          t.vars Machine.stackPtr = E.nat n := by
  obtain ⟨code, hcode, hrun⟩ := he.exists_hasCode hE hd
  obtain ⟨code', hcode', hrun'⟩ := (hw.evaluable he).exists_hasCode hE (hw.delivers hd)
  refine ⟨code, code', hcode, hcode', ?_⟩
  intro s n hn
  obtain ⟨v, vars, hc⟩ := Expr.exists_computes E he s.vars
  obtain ⟨v', hc', -⟩ := hw.exists_computes hu hc
  obtain ⟨t, ht, -, hvars, hk⟩ := hrun s n vars v hn hc
  obtain ⟨t', ht', -, hvars', hk'⟩ := hrun' s n vars v' hn hc'
  refine ⟨t, t', ht, ht', ?_, hk.stackPtr.trans hn⟩
  intro x ha hb
  by_cases hx : x = Machine.stackPtr
  · rw [hx, hk.stackPtr, hk'.stackPtr]
  · have hmem : x ∉ Machine.working := by simp [Machine.working, ha, hb, hx]
    rw [← hvars x hmem, hvars' x hmem]

/-- `z = e + (x = (1))`. -/
def addAssigned (x : String) (e : Expr) : Expr :=
  .assign "z" (.binary (.binary .add) e (.assign x (.paren (.literal "1"))))

/-- `z = x = e`. -/
def assignTwice (e : Expr) : Expr := .assign "z" (.assign "x" e)

theorem evaluable_addAssigned (hx : x ∉ Machine.working) :
    (addAssigned x (.name "x")).Evaluable Machine.working := by
  have hnames : ∀ text ∈ ["x", "z", "1"], text ∉ Machine.working := by decide
  exact ⟨hnames _ (by simp), hnames _ (by simp), hx, hnames _ (by simp)⟩

theorem wraps_addAssigned (x : String) :
    (addAssigned x (.name "x")).Wraps false (addAssigned x (.paren (.name "x"))) :=
  .assign (.binary (.atom rfl) .refl)

theorem delivers_addAssigned (x : String) : (addAssigned x (.name "x")).Delivers false :=
  ⟨⟨trivial, trivial, fun _ => rfl⟩, nofun⟩

theorem folding_invisible_addAssigned :
    Expr.Undisturbed false (addAssigned "y" (.name "x")) (addAssigned "y" (.paren (.name "x"))) ∧
      ∃ code code' t t', (addAssigned "y" (.name "x")).HasCode code ∧
        (addAssigned "y" (.paren (.name "x"))).HasCode code' ∧
        Engine.integers.execAll code State.sevens = some t ∧
        Engine.integers.execAll code' State.sevens = some t' ∧
        (∀ x, x ≠ Machine.acc → x ≠ Machine.regB → t.vars x = t'.vars x) ∧
        t.vars Machine.stackPtr = 7 := by
  have hu : Expr.Undisturbed false (addAssigned "y" (.name "x"))
      (addAssigned "y" (.paren (.name "x"))) :=
    ⟨trivial, trivial, fun _ _ text ht => by cases ht; decide⟩
  obtain ⟨code, code', hcode, hcode', hrun⟩ :=
    folding_invisible (Engine.blind_integers Machine.working) (evaluable_addAssigned (by decide))
      (wraps_addAssigned "y") (delivers_addAssigned "y") hu
  obtain ⟨t, t', ht, ht', hvars, hbp⟩ := hrun State.sevens 7 rfl
  exact ⟨hu, code, code', t, t', hcode, hcode', ht, ht', hvars, hbp⟩

/-- Running the code of `e` from a state with sevens in it leaves `v` in `z`. -/
def Expr.Leaves (e : Expr) (v : Int) : Prop :=
  ∃ code t, e.HasCode code ∧ Engine.integers.execAll code State.sevens = some t ∧ t.vars "z" = v

theorem Expr.Lowers.leaves {e : Expr} (h : e.Lowers (fun _ => none) .acc ps) (hc : e.calls = [])
    (ht : Engine.integers.execAll (Piece.flatten ps) State.sevens = some t)
    (hv : t.vars "z" = v) : e.Leaves v :=
  ⟨_, t, h.hasCode hc, ht, hv⟩

/-- Parentheses make a difference in `z = x + (x = (1))`, where the right operand assigns the atom
on its left. They also do in `z = x = 1`, where the value of the inner assignment is not found
unless it has been loaded. -/
theorem folding_visible :
    ((addAssigned "x" (.name "x")).Evaluable Machine.working ∧
        (addAssigned "x" (.name "x")).Delivers false ∧
        (addAssigned "x" (.name "x")).Wraps false (addAssigned "x" (.paren (.name "x"))) ∧
        (addAssigned "x" (.name "x")).Leaves 2 ∧
        (addAssigned "x" (.paren (.name "x"))).Leaves 8) ∧
      (assignTwice (.literal "1")).Evaluable Machine.working ∧
        Expr.Undisturbed false (assignTwice (.literal "1")) (assignTwice (.paren (.literal "1"))) ∧
        (assignTwice (.literal "1")).Wraps false (assignTwice (.paren (.literal "1"))) ∧
        (assignTwice (.literal "1")).Leaves 7 ∧
        (assignTwice (.paren (.literal "1"))).Leaves 1 := by
  refine ⟨⟨evaluable_addAssigned (by decide), delivers_addAssigned "x", wraps_addAssigned "x",
    ?_, ?_⟩, ?_, trivial, .assign (.assign (.atom rfl)), ?_, ?_⟩
  · exact Expr.Lowers.leaves (.assign (.binaryRight rfl rfl (.assign (.paren (.atom rfl))))) rfl
      rfl rfl
  · exact Expr.Lowers.leaves (.assign (.binary rfl rfl (.paren (.atom rfl))
      (.assign (.paren (.atom rfl))))) rfl rfl rfl
  · exact ⟨by decide, by decide, show "1" ∉ Machine.working by decide⟩
  · exact Expr.Lowers.leaves (.assign (.assign (.atom rfl))) rfl rfl rfl
  · exact Expr.Lowers.leaves (.assign (.assign (.paren (.atom rfl)))) rfl rfl rfl

end LogicAsm
