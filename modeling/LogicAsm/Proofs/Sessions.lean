import LogicAsm.Proofs.Replacement
import LogicAsm.Proofs.UniqueLabels

/-!
# Sessions on one builder

Any number of generators use one builder, in any order, and some of their actions fail. As long as
no call is lowered and no label is written that begins like a made-up one, each made-up label
stands at most once in the buffer and the functions of all generators together, and no number is
handed out twice (`Session.sound`, `made_up_labels_unique`).
-/

namespace LogicAsm

open Gen

/-! ## Trees without calls -/

/-- The expression with something that has no code in place of each call. -/
def Expr.uncalled : Expr → Expr
  | call f => .foreign (call f).kind
  | paren e => .paren e.uncalled
  | unary op e => .unary op e.uncalled
  | binary op l r => .binary op l.uncalled r.uncalled
  | assign x e => .assign x e.uncalled
  | update op x e => .update op x e.uncalled
  | e => e

theorem Expr.calls_uncalled (e : Expr) : e.uncalled.calls = [] := by
  induction e with
  | literal | name | bare | call | sensor | foreign => rfl
  | paren _ ih | unary _ _ ih | assign _ _ ih | update _ _ _ ih => exact ih
  | binary _ l r ihl ihr => rw [uncalled, calls, ihl, ihr, List.append_nil]

namespace Stmt

/-- The statement without calls. -/
def uncalled (s : Stmt) : Stmt := s.replace Expr.uncalled id

theorem callFree_uncalled (s : Stmt) : s.uncalled.CallFree := by
  intro e he
  have hexprs : s.uncalled.exprs ⊆ s.exprs.map Expr.uncalled := by
    cases s <;> simp [uncalled, replace, exprs]
  obtain ⟨e', -, rfl⟩ := List.mem_map.mp (hexprs he)
  exact e'.calls_uncalled

theorem uncalled_eq_label {s : Stmt} (h : s.uncalled = .label name) : s = .label name := by
  cases s <;> simp_all [uncalled, replace]

theorem uncalled_eq_asm {s : Stmt} (h : s.uncalled = .asm source) : s = .asm source := by
  cases s <;> simp_all [uncalled, replace]

/-- Without calls, statements are harmless if their labels are. -/
theorem harmless_uncalled {ss : List Stmt} (hw : ∀ name, Defines ss name → ¬Reserved name) :
    Harmless (withinAll (replaceAll Expr.uncalled id ss)) := by
  have hleaf (s : Stmt) (h : s.isLeaf) : (id s).isLeaf := h
  rw [withinAll_replaceAll hleaf]
  refine ⟨?_, ?_, ?_⟩
  · intro t ht
    obtain ⟨s, -, rfl⟩ := List.mem_map.mp ht
    exact s.callFree_uncalled
  · intro name ht
    obtain ⟨s, hs, he⟩ := List.mem_map.mp ht
    obtain rfl := uncalled_eq_label he
    exact hw name (.inl hs)
  · intro source name ht hi
    obtain ⟨s, hs, he⟩ := List.mem_map.mp ht
    obtain rfl := uncalled_eq_asm he
    exact hw name (.inr ⟨source, hs, hi⟩)

end Stmt

/-- The body without calls. -/
def Body.uncalled (b : Body) : Body := b.replace Expr.uncalled id

/-! ## Actions -/

namespace Action

/-- The action without calls. -/
def uncalled : Action → Action
  | lowerExpr e => .lowerExpr e.uncalled
  | lowerStmt s => .lowerStmt s.uncalled
  | lowerBody b => .lowerBody b.uncalled
  | generate root => .generate root.uncalled
  | action => action

/-- The actions that lower a tree, save or load a register, or take a number. The others give
code to the builder that was made elsewhere, or only look at it. -/
def isUse : Action → Bool
  | lowerExpr _ | lowerStmt _ | lowerBody _ | generate _ | push _ | pop _ | freshId => true
  | emit _ | emitAll _ | swapCode _ | link | print => false

/-- The statements that an action lowers. -/
def statements : Action → List Stmt
  | lowerStmt s => [s]
  | lowerBody b | generate b => b.statements?.getD []
  | _ => []

/-- What a session asks of an action. It is a use of the generator. It lowers no call: it does the
same with something that has no code in place of each call, so a call may only stand where the
action does not get to. No label that begins like a made-up one is written in its statements. -/
structure Admitted (action : Action) (g : Generator) : Prop where
  isUse : action.isUse
  noCall : action.run.run g = action.uncalled.run.run g
  labels : ∀ name, Stmt.Defines action.statements name → ¬Reserved name

theorem keepsTidy_uncalled {action : Action} (hu : action.isUse)
    (hw : ∀ name, Stmt.Defines action.statements name → ¬Reserved name) :
    KeepsTidy action.uncalled.run := by
  have hpure (r : Reply) : KeepsTidy (pure r : Gen Reply) := .of_appends (appends_pure r)
  have hplain {code : List Instr} (h : ∀ i ∈ code, i.Plain) : KeepsTidy (Gen.emitAll code) :=
    .of_appends (appends_plain h)
  have hbody (b : Body) (hw : ∀ name, Stmt.Defines (b.statements?.getD []) name → ¬Reserved name) :
      Harmless b.uncalled.within := by
    cases b with
    | block ss | program ss =>
      rw [Body.uncalled, Body.replace, Body.within]
      exact Stmt.harmless_uncalled hw
    | foreign kind =>
      rw [Body.uncalled, Body.replace, Body.within]
      exact ⟨by simp, by simp, by simp⟩
  cases action with
  | lowerExpr e =>
    refine KeepsTidy.bind (.of_appends ?_) fun _ => hpure _
    exact e.uncalled.appends_lowerTo .acc (.inl e.calls_uncalled)
  | lowerStmt s =>
    have hs := Stmt.harmless_uncalled hw
    rw [statements, Stmt.replaceAll_cons, Stmt.withinAll_cons] at hs
    exact (s.uncalled.keepsTidy (hs.mono (by simp [Stmt.uncalled]))).bind fun _ => hpure _
  | lowerBody b => exact (b.uncalled.keepsTidy (hbody b hw)).bind fun _ => hpure _
  | generate root =>
    refine KeepsTidy.bind ?_ fun _ => hpure _
    cases root with
    | program ss =>
      have hss := hbody (.program ss) hw
      rw [Body.uncalled, Body.replace] at hss ⊢
      rw [Body.within] at hss
      refine (hplain ?_).bind fun _ => (Stmt.keepsTidy_all _ hss).bind fun _ => ?_
      · simp [preamble, Instr.Plain]
      · refine (hplain (by simp [Instr.Plain])).bind fun _ => ?_
        exact fun names g hg => hg
    | block ss | foreign kind => exact .of_appends (appends_throw _)
  | push reg => exact (hplain (by simp [Instr.Plain])).bind fun _ => hpure _
  | pop reg => exact (hplain (by simp [Instr.Plain])).bind fun _ => hpure _
  | freshId =>
    refine KeepsTidy.bind ?_ fun _ => hpure _
    exact fun names => leads_freshId names (fun _ => []) fun _ => List.nil_subperm
  | emit | emitAll | swapCode | link | print => cases hu

/-- An admitted action keeps made-up labels unique, also if it fails. -/
theorem Admitted.tidy_after {action : Action} {g : Generator} (h : action.Admitted g)
    (hg : g.Tidy names) : (action.run.after g).Tidy names := by
  have hg' := keepsTidy_uncalled h.isUse h.labels names g hg
  rw [after, h.noCall]
  cases hr : action.uncalled.run.run g <;> rw [hr] at hg' <;> exact hg'

end Action

/-! ## Sessions -/

/-- The labels that are defined in the buffers and in the functions of all generators. -/
def Workspace.labels (w : Workspace) : List String :=
  (w.builders.flatMap fun b => labelsOf b.code) ++ w.members.flatMap fun m => m.functions.labels

/-- `Session ids w`: generators that share one builder have come to the workspace `w`, and the
numbers `ids` were handed out on the way, in this order. -/
inductive Session : List Nat → Workspace → Prop where
  | start : Session [] .initial
  | join {ids : List Nat} {w w' : Workspace} {n : Nat} (h : Session ids w)
      (hw : w.addSharing n = some w') : Session ids w'
  | act {ids : List Nat} {w w' : Workspace} {n : Nat} {action : Action} {g : Generator}
      {o : Workspace.Outcome} (h : Session ids w) (hg : w.generator? n = some g)
      (ha : action.Admitted g) (hw : w.act n action = some (o, w')) :
      Session (ids ++ action.runLogged.log g) w'

namespace Workspace

theorem eq_of_act {w w' : Workspace} {o : Outcome} {g : Generator} (hg : w.generator? n = some g)
    (h : w.act n action = some (o, w')) : w' = w.setGenerator n (action.run.after g) := by
  simp only [act, hg, Option.bind_eq_bind, Option.bind_some] at h
  rw [after]
  cases hr : action.run.run g <;> rw [hr] at h <;> cases h <;> rfl

/-- The labels with one generator apart from the others. -/
theorem labels_set_perm (b : Builder) {members : List Member} (hn : n < members.length)
    (m : Member) :
    (labels ⟨[b], members.set n m⟩).Perm ((members.eraseIdx n).flatMap (·.functions.labels) ++
      Generator.labels { b with functions := m.functions }) := by
  have hp := (List.set_perm_cons_eraseIdx hn m).flatMap_right (·.functions.labels)
  refine List.perm_iff_count.mpr fun name => ?_
  have hcount := hp.count_eq name
  simp only [List.flatMap_cons, List.count_append] at hcount
  simp only [labels, Generator.labels, List.flatMap_cons, List.flatMap_nil, List.append_nil,
    List.count_append]
  omega

/-- All generators use the builder `b`, whose counter tells the numbers that were handed out, and
made-up labels are unique. -/
structure Sound (ids : List Nat) (b : Builder) (w : Workspace) : Prop where
  builders : w.builders = [b]
  shared : ∀ m ∈ w.members, m.builder = 0
  handedOut : ids = List.range b.nextId
  labels : FreshLabels (¬Reserved ·) 0 b.nextId w.labels

namespace Sound

variable {ids : List Nat} {b : Builder} {w w' : Workspace}

theorem initial : Sound [] {} initial where
  builders := rfl
  shared := by simp [Workspace.initial]
  handedOut := rfl
  labels := .nil (Nat.le_refl 0)

/-- A new generator has no functions yet. -/
theorem addSharing (h : w.Sound ids b) (hw : w.addSharing n = some w') : w'.Sound ids b := by
  simp only [Workspace.addSharing, Option.bind_eq_bind, Option.bind_eq_some_iff] at hw
  obtain ⟨m, hm, ⟨⟩⟩ := hw
  refine ⟨h.builders, ?_, h.handedOut, ?_⟩
  · intro m' hm'
    rcases List.mem_append.mp hm' with hm' | hm'
    · exact h.shared m' hm'
    · cases List.mem_singleton.mp hm'
      exact h.shared m (List.mem_of_getElem? hm)
  · refine h.labels.of_count_le (Nat.le_refl _) fun name => ?_
    simp [Workspace.labels]

/-- One generator works, and everything else stands by. -/
theorem setGenerator {g : Generator} (h : w.Sound ids b) (hg : w.generator? n = some g) :
    g.toBuilder = b ∧ ∃ names, g.Tidy names ∧ ∀ g' : Generator, g'.Tidy names →
      (w.setGenerator n g').Sound (List.range g'.nextId) g'.toBuilder := by
  simp only [generator?, Option.bind_eq_bind, Option.bind_eq_some_iff] at hg
  obtain ⟨m, hm, b', hb', ⟨⟩⟩ := hg
  have hshared := h.shared m (List.mem_of_getElem? hm)
  obtain ⟨hn, rfl⟩ := List.getElem?_eq_some_iff.mp hm
  rw [h.builders, hshared] at hb'
  cases hb'
  -- The functions of the other generators stand elsewhere while this one works.
  refine ⟨rfl, (w.members.eraseIdx n).flatMap (·.functions.labels), ?_, ?_⟩
  · have hp := labels_set_perm b hn w.members[n]
    rw [List.set_getElem_self, ← h.builders] at hp
    exact h.labels.perm hp
  · intro g' hg'
    have hset : w.setGenerator n g' = ⟨[g'.toBuilder], w.members.set n ⟨0, g'.functions⟩⟩ := by
      simp [Workspace.setGenerator, hm, hshared, h.builders]
    rw [hset]
    refine ⟨rfl, ?_, rfl, hg'.perm (labels_set_perm g'.toBuilder hn ⟨0, g'.functions⟩).symm⟩
    intro m' hm'
    rcases List.mem_or_eq_of_mem_set hm' with hm' | rfl
    · exact h.shared m' hm'
    · rfl

/-- An action of one generator keeps everything sound. -/
theorem act {g : Generator} {o : Outcome} (h : w.Sound ids b) (hg : w.generator? n = some g)
    (ha : action.Admitted g) (hw : w.act n action = some (o, w')) :
    ∃ b', w'.Sound (ids ++ action.runLogged.log g) b' := by
  obtain ⟨rfl, names, htidy, hset⟩ := h.setGenerator hg
  obtain rfl := eq_of_act hg hw
  have hcounts := action.counts_run
  have hids : ids ++ action.runLogged.log g = List.range (action.run.after g).nextId := by
    have hle := (hcounts [] g).1
    rw [h.handedOut, hcounts.log, List.range_eq_range', List.range_eq_range']
    have happend := List.range'_append_1 (s := 0) (m := g.nextId)
      (n := (action.run.after g).nextId - g.nextId)
    rwa [Nat.zero_add, Nat.add_sub_cancel' hle] at happend
  rw [hids]
  exact ⟨_, hset _ (ha.tidy_after htidy)⟩

end Sound

end Workspace

/-- What holds at the start of a session holds all along. -/
theorem Session.sound (h : Session ids w) : ∃ b, w.Sound ids b := by
  induction h with
  | start => exact ⟨{}, .initial⟩
  | join _ hw ih =>
    obtain ⟨b, hb⟩ := ih
    exact ⟨b, hb.addSharing hw⟩
  | act _ hg ha hw ih =>
    obtain ⟨b, hb⟩ := ih
    exact hb.act hg ha hw

/-- In every state of a session, each made-up label is defined at most once in the buffer and the
functions of all generators together, its number is below the counter, and no number was handed
out twice. A statement that is lowered raises the counter by the number of control structures
inside, and one that fails does not lower it. -/
theorem made_up_labels_unique {ids : List Nat} {w : Workspace} (h : Session ids w) :
    (∃ b, w.builders = [b] ∧
      (∀ n, ∀ name ∈ structLabels n,
        w.labels.count name ≤ 1 ∧ (name ∈ w.labels → n < b.nextId)) ∧
      ids.Nodup ∧ ids = List.range b.nextId) ∧
    ∀ (s : Stmt) (g : Generator),
      match s.lower.run g with
      | .ok _ g' => g'.nextId = g.nextId + s.within.countP Stmt.isStructure
      | .error _ g' => g.nextId ≤ g'.nextId := by
  constructor
  · obtain ⟨b, hb⟩ := h.sound
    refine ⟨b, hb.builders, ?_, ?_, hb.handedOut⟩
    · intro n name hn
      have hreserved : ¬¬Reserved name := not_not_intro (reserved_of_mem_structLabels hn)
      refine ⟨hb.labels.count_le name hreserved, fun hm => ?_⟩
      obtain ⟨id, -, hlt, hid⟩ := (hb.labels.madeUp name hm).resolve_left hreserved
      rwa [eq_of_mem_structLabels hn hid]
    · rw [hb.handedOut]
      exact List.nodup_range
  · intro s g
    have hle := s.nextId_le_after g
    rw [after] at hle
    cases hr : s.lower.run g with
    | ok a g' => exact Stmt.nextId_of_run hr
    | error fault g' => rwa [hr] at hle

namespace Turns

/-- A function with a branch, and with a label that is written. -/
def declare : Action :=
  .lowerStmt (.function "f" (.block [.ifThen (.name "a") (.block [.label "l"])]))

/-- A loop that fails in its body, before it comes to a call. -/
def fail : Action :=
  .lowerStmt (.whileDo (.name "a") (.block [.foreign "Name", .expr (.call "f")]))

/-- The function once more, with other code. -/
def redeclare : Action :=
  .lowerStmt (.function "f" (.block [.ifElse (.name "b") (.block []) (.block [])]))

theorem admitted_declare (g : Generator) : declare.Admitted g where
  isUse := rfl
  noCall := rfl
  labels name hd := by
    obtain rfl : name = "l" := by
      simpa [declare, Action.statements, Stmt.Defines, Stmt.within, Body.within] using hd
    simp [Reserved, stems]

theorem admitted_fail (g : Generator) : fail.Admitted g where
  isUse := rfl
  noCall := rfl
  labels name hd := by
    simp [fail, Action.statements, Stmt.Defines, Stmt.within, Body.within] at hd

theorem admitted_redeclare (g : Generator) : redeclare.Admitted g where
  isUse := rfl
  noCall := rfl
  labels name hd := by
    simp [redeclare, Action.statements, Stmt.Defines, Stmt.within, Body.within] at hd

theorem admitted_freshId (g : Generator) : Action.freshId.Admitted g where
  isUse := rfl
  noCall := rfl
  labels name hd := by simp [Action.statements, Stmt.Defines] at hd

/-- What is left of the loop. -/
def loop : List Instr :=
  [.label (whileLabel 1), .set Machine.acc "a", .gotoUnless (.label (contLabel 1))]

/-- The function at first. -/
def branch : List Instr :=
  [.set Machine.acc "a", .gotoUnless (.label (ifLabel 0)), .label "l", .label (ifLabel 0)]

/-- The function in the end. -/
def choice : List Instr :=
  [.set Machine.acc "b", .gotoUnless (.label (ifLabel 2)), .goto (.label (contLabel 2)),
    .label (ifLabel 2), .label (contLabel 2)]

/-- Two generators on one builder, the first with functions. -/
def workspace (code : List Instr) (nextId : Nat) (functions : FunctionTable) : Workspace where
  builders := [{ code, nextId }]
  members := [{ builder := 0, functions }, { builder := 0 }]

/-- What the generators come to. -/
def final : Workspace := workspace loop 4 (.insert (.insert ∅ "f" branch) "f" choice)

/-- The generators take turns: the first declares a function, the second fails inside a loop, the
first declares the function again, and the second takes a number. -/
theorem session : Session [0, 1, 2, 3] final := by
  have hdeclare : Session [0] ⟨[{ nextId := 1 }], [⟨0, .insert ∅ "f" branch⟩]⟩ :=
    .act (n := 0) (g := {}) .start rfl (admitted_declare _) rfl
  have hjoin : Session [0] (workspace [] 1 (.insert ∅ "f" branch)) :=
    .join (n := 0) hdeclare rfl
  have hfail : Session [0, 1] (workspace loop 2 (.insert ∅ "f" branch)) :=
    .act (n := 1) (g := { nextId := 1 }) hjoin rfl (admitted_fail _) rfl
  have hredeclare :
      Session [0, 1, 2] (workspace loop 3 (.insert (.insert ∅ "f" branch) "f" choice)) :=
    .act (n := 0) (g := { code := loop, nextId := 2, functions := .insert ∅ "f" branch }) hfail rfl
      (admitted_redeclare _) rfl
  exact .act (n := 1) (g := { code := loop, nextId := 3 }) hredeclare rfl (admitted_freshId _) rfl

end Turns

/-- The labels of two functions of one name and of a loop that failed do not meet. -/
theorem made_up_labels_unique_turns :
    Session [0, 1, 2, 3] Turns.final ∧ whileLabel 1 ∈ Turns.final.labels ∧
      ∀ n, ∀ name ∈ structLabels n,
        Turns.final.labels.count name ≤ 1 ∧ (name ∈ Turns.final.labels → n < 4) := by
  obtain ⟨⟨b, hb, hlabels, -⟩, -⟩ := made_up_labels_unique Turns.session
  obtain rfl := List.singleton_inj.mp hb
  refine ⟨Turns.session, ?_, hlabels⟩
  simp [Turns.final, Turns.workspace, Turns.loop, Workspace.labels]

end LogicAsm
