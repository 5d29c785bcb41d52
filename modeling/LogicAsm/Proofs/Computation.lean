import LogicAsm.Proofs.Semantics

/-!
# How expressions are computed

An expression with assignments in it is computed in another order than it is read: an atom takes no
code, so one on the left of a computed operand is read after that operand (`Expr.Computes`). If no
such atom is assigned on the way, this gives the value that the expression has from left to right
(`Expr.Computes.eval_eq`).

Not every value can be found once it has been computed. An assignment leaves its value in the
accumulator only if the value has come that way, and an update does not leave it there at all.
`Expr.Delivers` says of an expression that it uses no such value.
-/

namespace LogicAsm

/-! ## Expressions that have a value -/

/-- Names out of reach of a program: the registers that the code of expressions works with are
among them, and the texts that it takes for constants are not. -/
structure Scratch (hidden : List String) : Prop where
  acc : Machine.acc ∈ hidden
  regB : Machine.regB ∈ hidden
  stackPtr : Machine.stackPtr ∈ hidden
  minusOne : "-1" ∉ hidden
  null : Machine.null ∉ hidden

theorem Machine.scratch_registers : Scratch Machine.registers := by
  constructor <;> decide

theorem Machine.acc_ne_regB : acc ≠ regB := by decide

theorem Machine.acc_ne_stackPtr : acc ≠ stackPtr := by decide

theorem Machine.regB_ne_stackPtr : regB ≠ stackPtr := by decide

/-- The result of an operation on one value depends on no hidden variable. -/
theorem UnaryOp.apply_congr {E : Engine V} {hidden : List String} (hh : Scratch hidden)
    {vars vars' : String → V} (h : AgreeOff hidden vars vars') (v : V) (op : UnaryOp) :
    op.apply E vars v = op.apply E vars' v := by
  cases op with
  | neg => rw [apply, apply, E.value_congr (h _ hh.minusOne)]
  | bitNot => rw [apply, apply, E.value_congr (h _ hh.null)]

namespace Expr

/-- An expression that has a value, and may assign variables on the way to it: its operators are of
the right families, and it mentions no hidden name. -/
def Evaluable (hidden : List String) : Expr → Prop
  | literal text | name text => text ∉ hidden
  | paren e | unary (.unary _) e => e.Evaluable hidden
  | binary (.binary _) l r => l.Evaluable hidden ∧ r.Evaluable hidden
  | assign x e | update (.update _) x e => x ∉ hidden ∧ e.Evaluable hidden
  | sensor block _ => block ∉ hidden
  | _ => False

/-- An expression without effect, with operators of the right families, that mentions no hidden
name. -/
def Pure (hidden : List String) : Expr → Prop
  | literal text | name text => text ∉ hidden
  | paren e | unary (.unary _) e => e.Pure hidden
  | binary (.binary _) l r => l.Pure hidden ∧ r.Pure hidden
  | sensor block _ => block ∉ hidden
  | _ => False

/-- The variables that an expression assigns. -/
def assigned : Expr → List String
  | paren e | unary _ e => e.assigned
  | binary _ l r => l.assigned ++ r.assigned
  | assign x e | update _ x e => x :: e.assigned
  | literal _ | name _ | bare _ | call _ | sensor _ _ | foreign _ => []

section

variable {hidden : List String} {e : Expr}

theorem Pure.evaluable (he : e.Pure hidden) : e.Evaluable hidden := by
  induction e with
  | literal | name | sensor => exact he
  | paren e ih => exact ih he
  | unary slot e ih =>
    cases slot with
    | unary op => exact ih he
    | _ => exact he.elim
  | binary slot l r ihl ihr =>
    cases slot with
    | binary op => exact ⟨ihl he.1, ihr he.2⟩
    | _ => exact he.elim
  | _ => exact he.elim

theorem Pure.assigned_eq_nil (he : e.Pure hidden) : e.assigned = [] := by
  induction e with
  | literal | name | sensor => rfl
  | paren e ih => exact ih he
  | unary slot e ih =>
    cases slot with
    | unary op => exact ih he
    | _ => exact he.elim
  | binary slot l r ihl ihr =>
    cases slot with
    | binary op => rw [assigned, ihl he.1, ihr he.2, List.append_nil]
    | _ => exact he.elim
  | _ => exact he.elim

theorem Evaluable.not_mem_of_atom? (he : e.Evaluable hidden) (ha : e.atom? = some text) :
    text ∉ hidden := by
  cases e with
  | literal | name => cases ha; exact he
  | _ => cases ha

theorem eval_of_atom? (E : Engine V) (ha : e.atom? = some text) (vars : String → V) :
    e.eval E vars = some (E.value vars text, vars) := by
  cases e with
  | literal | name => cases ha; rfl
  | _ => cases ha

end

/-! ## Order of evaluation -/

/-- `e.Computes E vars v vars'`: the code of `e` computes `v` and leaves the variables `vars'`.
Parts are computed from left to right, but an atom on the left of an operation is read last. -/
inductive Computes (E : Engine V) : Expr → (String → V) → V → (String → V) → Prop where
  | atom (ha : atom? e = some text) : Computes E e vars (E.value vars text) vars
  | paren (h : Computes E e vars v vars') : Computes E (.paren e) vars v vars'
  | unary (h : Computes E e vars v vars') :
      Computes E (.unary (.unary op) e) vars (op.apply E vars' v) vars'
  | binaryLate (hl : atom? l = some left) (h : Computes E r vars w vars') :
      Computes E (.binary (.binary op) l r) vars
        (E.apply op.mnemonic (E.value vars' left) w) vars'
  | binary (hl : atom? l = none) (h : Computes E l vars v vars₁)
      (h' : Computes E r vars₁ w vars₂) :
      Computes E (.binary (.binary op) l r) vars (E.apply op.mnemonic v w) vars₂
  | assign (h : Computes E e vars v vars') :
      Computes E (.assign x e) vars v (Function.update vars' x v)
  | update (h : Computes E e vars v vars') (hu : u = E.apply op.mnemonic (E.value vars' x) v) :
      Computes E (.update (.update op) x e) vars u (Function.update vars' x u)
  | sensor : Computes E (.sensor block attr) vars (E.sensor block ("@" ++ attr) vars) vars

/-- No operation has an atom on its left that the operand on its right assigns. -/
def Ordered : Expr → Prop
  | paren e | unary _ e | assign _ e | update _ _ e => e.Ordered
  | binary _ l r => l.Ordered ∧ r.Ordered ∧ ∀ text, l.atom? = some text → text ∉ r.assigned
  | literal _ | name _ | bare _ | call _ | sensor _ _ | foreign _ => True

theorem ordered_of_assigned_eq_nil {e : Expr} (h : e.assigned = []) : e.Ordered := by
  induction e with
  | literal | name | bare | call | sensor | foreign => trivial
  | paren e ih | unary _ e ih => exact ih h
  | binary _ l r ihl ihr =>
    obtain ⟨hl, hr⟩ := List.append_eq_nil_iff.mp h
    refine ⟨ihl hl, ihr hr, fun text _ => ?_⟩
    rw [hr]
    exact List.not_mem_nil
  | assign | update => cases h

variable {E : Engine V} {hidden : List String} {e : Expr} {vars vars' : String → V} {v : V}

theorem exists_computes (E : Engine V) (he : e.Evaluable hidden) (vars : String → V) :
    ∃ v vars', e.Computes E vars v vars' := by
  induction e generalizing vars with
  | literal | name => exact ⟨_, _, .atom rfl⟩
  | paren e ih =>
    obtain ⟨v, vars', h⟩ := ih he vars
    exact ⟨_, _, .paren h⟩
  | unary slot e ih =>
    cases slot with
    | unary op =>
      obtain ⟨v, vars', h⟩ := ih he vars
      exact ⟨_, _, .unary h⟩
    | _ => exact he.elim
  | binary slot l r ihl ihr =>
    cases slot with
    | binary op =>
      cases hl : l.atom? with
      | some left =>
        obtain ⟨w, vars', h⟩ := ihr he.2 vars
        exact ⟨_, _, .binaryLate hl h⟩
      | none =>
        obtain ⟨v, vars₁, h⟩ := ihl he.1 vars
        obtain ⟨w, vars₂, h'⟩ := ihr he.2 vars₁
        exact ⟨_, _, .binary hl h h'⟩
    | _ => exact he.elim
  | assign x e ih =>
    obtain ⟨v, vars', h⟩ := ih he.2 vars
    exact ⟨_, _, .assign h⟩
  | update slot x e ih =>
    cases slot with
    | update op =>
      obtain ⟨v, vars', h⟩ := ih he.2 vars
      exact ⟨_, _, .update h rfl⟩
    | _ => exact he.elim
  | sensor => exact ⟨_, _, .sensor⟩
  | bare | call | foreign => exact he.elim

/-- An atom has its value, and no effect. -/
theorem Computes.of_atom? (h : e.Computes E vars v vars') (ha : e.atom? = some text) :
    v = E.value vars text ∧ vars' = vars := by
  cases h with
  | atom ha' =>
    cases ha.symm.trans ha'
    exact ⟨rfl, rfl⟩
  | _ => cases ha

/-- Only assigned variables change. -/
theorem Computes.eq_of_not_mem_assigned (h : e.Computes E vars v vars') {x : String}
    (hx : x ∉ e.assigned) : vars' x = vars x := by
  induction h with
  | atom | sensor => rfl
  | paren _ ih | unary _ ih => exact ih hx
  | binaryLate _ _ ih =>
    rw [assigned, List.mem_append, not_or] at hx
    exact ih hx.2
  | binary _ _ _ ih ih' =>
    rw [assigned, List.mem_append, not_or] at hx
    exact (ih' hx.2).trans (ih hx.1)
  | assign _ ih | update _ _ ih =>
    rw [assigned, List.mem_cons, not_or] at hx
    rw [Function.update_of_ne hx.1]
    exact ih hx.2

/-- An atom may be read last if nothing that is computed before assigns it. -/
theorem Computes.eval_eq (h : e.Computes E vars v vars') (ho : e.Ordered) :
    e.eval E vars = some (v, vars') := by
  induction h with
  | atom ha => exact eval_of_atom? E ha _
  | paren _ ih => exact ih ho
  | unary _ ih =>
    rw [eval, ih ho]
    rfl
  | @binaryLate l left r vars w vars' op hl h ih =>
    obtain ⟨-, hr, hleft⟩ := ho
    rw [eval, eval_of_atom? E hl]
    simp only [Option.bind_eq_bind, Option.bind_some, ih hr]
    rw [E.value_congr (h.eq_of_not_mem_assigned (hleft left hl))]
    rfl
  | binary _ _ _ ih ih' =>
    rw [eval, ih ho.1]
    simp only [Option.bind_eq_bind, Option.bind_some, ih' ho.2.1]
    rfl
  | assign _ ih =>
    rw [eval, ih ho]
    rfl
  | update _ hu ih =>
    subst hu
    rw [eval, ih ho]
    rfl
  | sensor => rfl

theorem Pure.ordered (he : e.Pure hidden) : e.Ordered :=
  ordered_of_assigned_eq_nil he.assigned_eq_nil

/-- A pure expression is computed without a change, in whatever order it is read. -/
theorem Pure.exists_computes (E : Engine V) (he : e.Pure hidden) (vars : String → V) :
    ∃ v, e.Computes E vars v vars ∧ e.eval E vars = some (v, vars) := by
  obtain ⟨v, vars', h⟩ := Expr.exists_computes E he.evaluable vars
  have hvars : vars' = vars := by
    funext x
    apply h.eq_of_not_mem_assigned
    rw [he.assigned_eq_nil]
    exact List.not_mem_nil
  subst hvars
  exact ⟨v, h, h.eval_eq he.ordered⟩

/-! ## Values that can be found -/

/-- The value goes to a variable directly, and not by way of the accumulator. -/
def direct : Expr → Bool
  | literal _ | name _ | binary _ _ _ => true
  | _ => false

theorem direct_of_atom? (ha : e.atom? = some text) : e.direct = true := by
  cases e with
  | literal | name => rfl
  | _ => cases ha

/-- Every value that is used can be found: that of the expression itself if it is `used`, that of a
part if an operation with a used result takes it, and that of everything assigned. An assignment is
not used unless its value has come by way of the accumulator, and an update never. -/
def Delivers : Bool → Expr → Prop
  | used, paren e | used, unary _ e => e.Delivers used
  | used, binary _ l r => l.Delivers used ∧ r.Delivers used
  | used, assign _ e => e.Delivers true ∧ (used = true → e.direct = false)
  | used, update _ _ e => e.Delivers true ∧ used = false
  | _, literal _ | _, name _ | _, bare _ | _, call _ | _, sensor _ _ | _, foreign _ => True

theorem delivers_of_assigned_eq_nil (h : e.assigned = []) (used : Bool) : e.Delivers used := by
  induction e with
  | literal | name | bare | call | sensor | foreign => trivial
  | paren e ih | unary _ e ih => exact ih h
  | binary _ l r ihl ihr =>
    obtain ⟨hl, hr⟩ := List.append_eq_nil_iff.mp h
    exact ⟨ihl hl, ihr hr⟩
  | assign | update => cases h

theorem Pure.delivers (he : e.Pure hidden) (used : Bool) : e.Delivers used :=
  delivers_of_assigned_eq_nil he.assigned_eq_nil used

end Expr

end LogicAsm
