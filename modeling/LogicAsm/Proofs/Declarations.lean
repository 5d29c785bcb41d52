import LogicAsm.Proofs.AppendOnly

/-!
# Declared functions

A declaration makes the code of its function in a buffer of its own, and puts the former buffer
back on every way out. If it fails, the functions that were declared inside it before the fault
stay declared. Which these are is told by a walk over the tree (`Stmt.declarations`), and the
functions after any lowering are those before, replaced by the walk's completed declarations in
their order (`Stmt.registers_lower`, `declaration_restores_buffer`).
-/

namespace LogicAsm

open Gen

/-- The generator with an empty buffer. -/
def Generator.bare (g : Generator) : Generator := { g with code := [] }

/-- The generator after a number has been taken. -/
def Generator.next (g : Generator) : Generator := { g with nextId := g.nextId + 1 }

/-! ## Declarations on the way -/

/-- A declaration that was begun: its function and body, and the counter and the functions at that
time. -/
structure Declaration where
  function : String
  body : Body
  nextId : Nat
  functions : FunctionTable

namespace Declaration

/-- The code of the function, if the declaration is completed. -/
def code? (d : Declaration) : Option (List Instr) :=
  match d.body.lower.run { nextId := d.nextId, functions := d.functions } with
  | .ok _ g => some g.code
  | .error _ _ => none

/-- The code that the last completed declaration of a function gives to it. -/
def latest (f : String) (ds : List Declaration) : Option (List Instr) :=
  (ds.filterMap fun d => if d.function = f then d.code? else none).getLast?

@[simp] theorem latest_nil (f : String) : latest f [] = none := rfl

theorem latest_append (f : String) (ds ds' : List Declaration) :
    latest f (ds ++ ds') = (latest f ds').or (latest f ds) := by
  rw [latest, List.filterMap_append, List.getLast?_append, latest, latest]

theorem latest_singleton (f : String) (d : Declaration) :
    latest f [d] = if d.function = f then d.code? else none := by
  rw [latest, List.filterMap_cons]
  split
  · rename_i h
    rw [h]
    rfl
  · rename_i h
    rw [h]
    rfl

end Declaration

open Declaration (latest)

/-- The declarations that are begun behind an action; there are none if it fails. -/
def Gen.followed (act : Gen α) (g : Generator) (ds : Generator → List Declaration) :
    List Declaration :=
  match act.run g with
  | .ok _ g' => ds g'.bare
  | .error _ _ => []

mutual

/-- The declarations that are begun when a statement is lowered, in the order in which they end. -/
def Stmt.declarations (g : Generator) : Stmt → List Declaration
  | .block ss => Stmt.declarationsAll g ss
  | .function f body => body.declarations g ++ [⟨f, body, g.nextId, g.functions⟩]
  | .ifThen cond body => cond.lower.followed g fun g₁ => body.declarations g₁.next
  | .ifElse cond body body' =>
    cond.lower.followed g fun g₁ =>
      body.declarations g₁.next ++ body.lower.followed g₁.next fun g₂ => body'.declarations g₂
  | .whileDo cond body => cond.lower.followed g.next fun g₁ => body.declarations g₁
  | _ => []

/-- The declarations that are begun when statements are lowered in order. -/
def Stmt.declarationsAll (g : Generator) : List Stmt → List Declaration
  | [] => []
  | s :: rest => s.declarations g ++ s.lower.followed g fun g₁ => Stmt.declarationsAll g₁ rest

/-- The declarations that are begun when a body is lowered. -/
def Body.declarations (g : Generator) : Body → List Declaration
  | .block ss | .program ss => Stmt.declarationsAll g ss
  | .foreign _ => []

end

/-! ## Declarations stand in the tree -/

theorem Gen.mem_followed {act : Gen α} {g : Generator} {ds : Generator → List Declaration}
    {d : Declaration} (h : d ∈ act.followed g ds) : ∃ g', d ∈ ds g' := by
  unfold followed at h
  split at h
  · exact ⟨_, h⟩
  · cases h

mutual

theorem Stmt.within_of_declarations (s : Stmt) {g : Generator} {d : Declaration}
    (h : d ∈ s.declarations g) : .function d.function d.body ∈ s.within := by
  match s with
  | .block ss =>
    rw [Stmt.declarations] at h
    rw [Stmt.within]
    exact List.mem_cons_of_mem _ (Stmt.within_of_declarationsAll ss h)
  | .function f body =>
    rw [Stmt.declarations] at h
    rw [Stmt.within]
    rcases List.mem_append.mp h with h | h
    · exact List.mem_cons_of_mem _ (Body.within_of_declarations body h)
    · cases List.mem_singleton.mp h
      exact List.mem_cons_self
  | .ifThen cond body | .whileDo cond body =>
    rw [Stmt.declarations] at h
    rw [Stmt.within]
    obtain ⟨g₁, h⟩ := mem_followed h
    exact List.mem_cons_of_mem _ (Body.within_of_declarations body h)
  | .ifElse cond body body' =>
    rw [Stmt.declarations] at h
    rw [Stmt.within]
    obtain ⟨g₁, h⟩ := mem_followed h
    refine List.mem_cons_of_mem _ (List.mem_append.mpr ?_)
    rcases List.mem_append.mp h with h | h
    · exact .inl (Body.within_of_declarations body h)
    · obtain ⟨g₂, h⟩ := mem_followed h
      exact .inr (Body.within_of_declarations body' h)
  | .expr _ | .print _ | .draw _ | .drawFlush | .asm _ | .label _ | .goto _ | .foreign _ => cases h

theorem Stmt.within_of_declarationsAll (ss : List Stmt) {g : Generator} {d : Declaration}
    (h : d ∈ Stmt.declarationsAll g ss) : .function d.function d.body ∈ Stmt.withinAll ss := by
  match ss with
  | [] => cases h
  | s :: rest =>
    rw [Stmt.declarationsAll] at h
    rw [Stmt.withinAll]
    refine List.mem_append.mpr ?_
    rcases List.mem_append.mp h with h | h
    · exact .inl (Stmt.within_of_declarations s h)
    · obtain ⟨g₁, h⟩ := mem_followed h
      exact .inr (Stmt.within_of_declarationsAll rest h)

/-- Only declarations inside a body are begun when it is lowered. -/
theorem Body.within_of_declarations (body : Body) {g : Generator} {d : Declaration}
    (h : d ∈ body.declarations g) : .function d.function d.body ∈ body.within := by
  match body with
  | .block ss | .program ss =>
    rw [Body.declarations] at h
    rw [Body.within]
    exact Stmt.within_of_declarationsAll ss h
  | .foreign _ => cases h

end

/-! ## What is declared in the end -/

namespace Gen

/-- Whether the action fails or not, the functions after it are those before, but for the completed
ones among the declarations. -/
def Registers (act : Gen α) (ds : Generator → List Declaration) : Prop :=
  ∀ g name, (act.after g).functions[name]? = (latest name (ds g.bare)).or g.functions[name]?

/-- The action declares nothing. -/
def Steady (act : Gen α) : Prop := ∀ g, (act.after g).functions = g.functions

theorem Appends.steady {act : Gen α} (h : Appends written act) : Steady act := by
  intro g
  obtain ⟨code, -, hg⟩ := h g
  rw [hg]

namespace Registers

variable {x : Gen α} {f : α → Gen β} {ds ds' : Generator → List Declaration}

theorem of_steady (h : Steady x) : Registers x fun _ => [] := by
  intro g name
  rw [h g, Declaration.latest_nil, Option.none_or]

theorem bind (hx : Registers x ds) (ha : AppendOnly x) (hf : ∀ a, Registers (f a) ds') :
    Registers (x >>= f) fun g => ds g ++ x.followed g ds' := by
  intro g name
  have hg := hx g name
  have hrun := ha.run_eq g
  rw [after_bind, Declaration.latest_append, Option.or_assoc, ← hg, after, hrun]
  unfold followed Generator.bare
  cases x.run { g with code := [] } with
  | ok a g₁ => exact hf a { g₁ with code := g.code ++ g₁.code } name
  | error fault g₁ => rfl

/-- What is emitted before plays no part. -/
theorem after_emit (i : Instr) {y : Gen β} (hy : Registers y ds) :
    Registers (emit i >>= fun _ => y) ds :=
  fun g name => hy { g with code := g.code ++ [i] } name

theorem after_freshId {f : Nat → Gen β} (ds : Generator → List Declaration)
    (hf : ∀ id, Registers (f id) ds) : Registers (freshId >>= f) fun g => ds g.next :=
  fun g name => hf g.nextId { g with nextId := g.nextId + 1 } name

/-- An expression declares nothing itself, but what follows is given up if it fails. -/
theorem after_lower (e : Expr) (ds : Generator → List Declaration) {y : Gen β}
    (hy : Registers y ds) : Registers (e.lower >>= fun _ => y) fun g => e.lower.followed g ds :=
  (of_steady fun g => (e.after_lower g).2).bind (e.appendOnly_lowerTo .acc) fun _ => hy

theorem andThen (hx : Registers x ds) (hf : ∀ a, Steady (f a)) : Registers (x >>= f) ds := by
  intro g name
  have hg := hx g name
  rw [after_bind, ← hg, after]
  cases x.run g with
  | ok a g₁ => rw [hf a g₁]
  | error fault g₁ => rfl

theorem declare {body : Body} (h : Registers body.lower ds) (f : String) :
    Registers (detached body.lower >>= declare f) fun g =>
      ds g ++ [⟨f, body, g.nextId, g.functions⟩] := by
  intro g name
  have hbody : _ = (latest name (ds g.bare)).or g.functions[name]? := h g.bare name
  have hcode : (Declaration.mk f body g.bare.nextId g.bare.functions).code? =
      match body.lower.run g.bare with
      | .ok _ g' => some g'.code
      | .error _ _ => none := rfl
  rw [after_bind, run_detached, Declaration.latest_append, Declaration.latest_singleton, hcode,
    Option.or_assoc, ← hbody, after]
  change _ = Option.or (if f = name then _ else none) _
  rw [← Generator.bare]
  cases body.lower.run g.bare with
  | error fault g₁ => simp
  | ok _ g₁ =>
    change (g₁.functions.insert f g₁.code)[name]? = _
    rw [Std.TreeMap.getElem?_insert]
    simp only [Std.compare_eq_iff_eq]
    split <;> rfl

end Registers

end Gen

/-- A simple statement declares nothing. -/
theorem Stmt.registers_simple {s : Stmt} (hs : s.isSimple) : Registers s.lower fun _ => [] :=
  .of_steady (appends_lower hs (.inr fun _ => trivial) fun _ _ => trivial).steady

mutual

theorem Stmt.registers_lower (s : Stmt) : Registers s.lower s.declarations := by
  match s with
  | .block ss =>
    rw [Stmt.lower]
    exact Stmt.registers_lowerAll ss
  | .function f body =>
    rw [Stmt.lower]
    exact (Body.registers_lower body).declare f
  | .ifThen cond body =>
    rw [Stmt.lower]
    refine .after_lower cond (body.declarations ·.next) ?_
    refine .after_freshId body.declarations fun id => .after_emit _ ?_
    exact (Body.registers_lower body).andThen fun _ _ => rfl
  | .ifElse cond body body' =>
    rw [Stmt.lower]
    let both (g : Generator) := body.declarations g ++ body.lower.followed g body'.declarations
    refine .after_lower cond (both ·.next) (.after_freshId both fun id => .after_emit _ ?_)
    refine (Body.registers_lower body).bind body.appendOnly_lower fun _ => ?_
    refine .after_emit _ (.after_emit _ ?_)
    exact (Body.registers_lower body').andThen fun _ _ => rfl
  | .whileDo cond body =>
    rw [Stmt.lower]
    refine .after_freshId (cond.lower.followed · body.declarations) fun id => .after_emit _ ?_
    refine .after_lower cond body.declarations (.after_emit _ ?_)
    exact (Body.registers_lower body).andThen fun _ _ => rfl
  | .expr _ | .print _ | .draw _ | .drawFlush | .asm _ | .label _ | .goto _ | .foreign _ =>
    exact Stmt.registers_simple rfl

theorem Stmt.registers_lowerAll (ss : List Stmt) :
    Registers (Stmt.lowerAll ss) (Stmt.declarationsAll · ss) := by
  match ss with
  | [] =>
    rw [Stmt.lowerAll]
    exact .of_steady fun _ => rfl
  | s :: rest =>
    rw [Stmt.lowerAll]
    exact (Stmt.registers_lower s).bind s.appendOnly_lower fun _ => Stmt.registers_lowerAll rest

theorem Body.registers_lower (body : Body) : Registers body.lower body.declarations := by
  match body with
  | .block ss | .program ss =>
    rw [Body.lower]
    exact Stmt.registers_lowerAll ss
  | .foreign kind =>
    rw [Body.lower]
    exact .of_steady fun _ => rfl

end

/-! ## Declaring a function -/

theorem Stmt.run_function (f : String) (body : Body) (g : Generator) :
    (Stmt.function f body).lower.run g =
      match body.lower.run g.bare with
      | .ok _ g₁ => .ok () { g₁ with code := g.code, functions := g₁.functions.insert f g₁.code }
      | .error fault g₁ => .error fault { g₁ with code := g.code } := by
  rw [Stmt.lower, EStateM.run_bind, run_detached, ← Generator.bare]
  cases body.lower.run g.bare <;> rfl

/-- A declaration leaves the buffer as it was, whether it succeeds or not. It succeeds if its body
does, from any buffer, and then the function has the code that the body appends there. If it fails,
a function has the code of the last declaration of it that was completed inside the body, or else
what it had before. -/
theorem declaration_restores_buffer (f : String) (body : Body) (g : Generator) :
    ((Stmt.function f body).lower.after g).code = g.code ∧
    (∀ buffer : List Instr,
      match body.lower.run { g with code := buffer } with
      | .ok _ g₁ => ∃ code, g₁.code = buffer ++ code ∧
        (Stmt.function f body).lower.run g =
          .ok () { g₁ with code := g.code, functions := g₁.functions.insert f code }
      | .error fault g₁ =>
        (Stmt.function f body).lower.run g = .error fault { g₁ with code := g.code } ∧
        ∀ name, g₁.functions[name]? =
          (latest name (body.declarations g.bare)).or g.functions[name]?) ∧
    ∀ d ∈ body.declarations g.bare, .function d.function d.body ∈ body.within := by
  have hrun := Stmt.run_function f body g
  have hfunctions := body.registers_lower g.bare
  rw [after] at hfunctions
  refine ⟨?_, fun buffer => ?_, fun d => body.within_of_declarations⟩
  · rw [after, hrun]
    cases body.lower.run g.bare <;> rfl
  · have hbuffer : body.lower.run { g with code := buffer } =
        behind buffer (body.lower.run g.bare) :=
      body.appendOnly_lower.run_eq { g with code := buffer }
    rw [hbuffer]
    cases hr : body.lower.run g.bare with
    | ok _ g₁ =>
      rw [hr] at hrun
      exact ⟨g₁.code, rfl, hrun⟩
    | error fault g₁ =>
      rw [hr] at hrun hfunctions
      exact ⟨hrun, hfunctions⟩

/-- A body that completes a declaration of `"f"` and then fails inside one of `"h"`. -/
def failingInside : Body :=
  .block [.function "f" (.block [.label "a"]), .function "h" (.block [.label "b", .foreign "Name"])]

example :
    let g := (Stmt.function "f" failingInside).lower.after { code := [.halt] }
    g.code = [.halt] ∧ g.functions["f"]? = some [.label "a"] ∧ g.functions["h"]? = none := by
  decide

end LogicAsm
