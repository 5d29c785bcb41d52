import LogicAsm.Proofs.OwnCode

/-!
# Replacement inside statements

A tree of the same shape with other expressions, and with other statements in place of those that
have no parts. The statements inside the new tree are those inside the old one, each replaced
(`Stmt.withinAll_replaceAll`).
-/

namespace LogicAsm

/-- A statement that neither computes an expression nor has statements inside. -/
def Stmt.isLeaf : Stmt → Bool
  | .draw _ | .drawFlush | .asm _ | .label _ | .goto _ | .foreign _ => true
  | _ => false

mutual

/-- A statement of the same shape, with other expressions and other leaves. -/
def Stmt.replace (onExpr : Expr → Expr) (onLeaf : Stmt → Stmt) : Stmt → Stmt
  | .block ss => .block (Stmt.replaceAll onExpr onLeaf ss)
  | .expr e => .expr (onExpr e)
  | .print args => .print (args.map onExpr)
  | .function f body => .function f (body.replace onExpr onLeaf)
  | .ifThen cond body => .ifThen (onExpr cond) (body.replace onExpr onLeaf)
  | .ifElse cond body body' =>
    .ifElse (onExpr cond) (body.replace onExpr onLeaf) (body'.replace onExpr onLeaf)
  | .whileDo cond body => .whileDo (onExpr cond) (body.replace onExpr onLeaf)
  | s => onLeaf s

/-- Replace in each statement. -/
def Stmt.replaceAll (onExpr : Expr → Expr) (onLeaf : Stmt → Stmt) : List Stmt → List Stmt
  | [] => []
  | s :: rest => s.replace onExpr onLeaf :: Stmt.replaceAll onExpr onLeaf rest

/-- Replace in the statements of a body. -/
def Body.replace (onExpr : Expr → Expr) (onLeaf : Stmt → Stmt) : Body → Body
  | .block ss => .block (Stmt.replaceAll onExpr onLeaf ss)
  | .program ss => .program (Stmt.replaceAll onExpr onLeaf ss)
  | .foreign kind => .foreign kind

end

variable {onExpr : Expr → Expr} {onLeaf : Stmt → Stmt}

theorem Body.statements?_replace {body : Body} (hb : body.statements? = some ss) :
    (body.replace onExpr onLeaf).statements? = some (Stmt.replaceAll onExpr onLeaf ss) := by
  cases body with
  | block | program => cases hb; rw [Body.replace]; rfl
  | foreign => cases hb

namespace Stmt

@[simp] theorem replaceAll_nil : replaceAll onExpr onLeaf [] = [] := by rw [replaceAll]

@[simp] theorem replaceAll_cons (s : Stmt) (rest : List Stmt) :
    replaceAll onExpr onLeaf (s :: rest) =
      s.replace onExpr onLeaf :: replaceAll onExpr onLeaf rest := by
  rw [replaceAll]

theorem replace_of_isLeaf {s : Stmt} (h : s.isLeaf) : s.replace onExpr onLeaf = onLeaf s := by
  cases s <;> first | rfl | cases h

mutual

private theorem replace_id (s : Stmt) : s.replace id id = s := by
  match s with
  | .block ss => rw [replace, replaceAll_id ss]
  | .expr _ => rw [replace, id]
  | .print args => rw [replace, List.map_id]
  | .function f body => rw [replace, replace_id_body body]
  | .ifThen cond body | .whileDo cond body => rw [replace, replace_id_body body, id]
  | .ifElse cond body body' => rw [replace, replace_id_body body, replace_id_body body', id]
  | .draw _ | .drawFlush | .asm _ | .label _ | .goto _ | .foreign _ => exact replace_of_isLeaf rfl

/-- Nothing is replaced. -/
theorem replaceAll_id (ss : List Stmt) : replaceAll id id ss = ss := by
  match ss with
  | [] => exact replaceAll_nil
  | s :: rest => rw [replaceAll_cons, replace_id s, replaceAll_id rest]

private theorem replace_id_body (body : Body) : body.replace id id = body := by
  match body with
  | .block ss | .program ss => rw [Body.replace, replaceAll_id ss]
  | .foreign _ => rw [Body.replace]

end

theorem within_of_isLeaf {s : Stmt} (h : s.isLeaf) : s.within = [s] := by
  cases s <;> first | rfl | cases h

mutual

private theorem within_replace (hleaf : ∀ s, s.isLeaf → (onLeaf s).isLeaf) (s : Stmt) :
    (s.replace onExpr onLeaf).within = s.within.map (replace onExpr onLeaf) := by
  match s with
  | .block ss => simp [replace, within, withinAll_replaceAll hleaf ss]
  | .expr _ | .print _ => simp [replace, within]
  | .function f body => simp [replace, within, within_replace_body hleaf body]
  | .ifThen cond body | .whileDo cond body => simp [replace, within, within_replace_body hleaf body]
  | .ifElse cond body body' =>
    simp [replace, within, within_replace_body hleaf body, within_replace_body hleaf body']
  | .draw _ | .drawFlush | .asm _ | .label _ | .goto _ | .foreign _ =>
    rw [replace_of_isLeaf rfl, within_of_isLeaf (hleaf _ rfl), within_of_isLeaf rfl,
      List.map_singleton, replace_of_isLeaf rfl]

/-- The statements inside the new tree are those inside the old one, each replaced. -/
theorem withinAll_replaceAll (hleaf : ∀ s, s.isLeaf → (onLeaf s).isLeaf) (ss : List Stmt) :
    withinAll (replaceAll onExpr onLeaf ss) = (withinAll ss).map (replace onExpr onLeaf) := by
  match ss with
  | [] => simp
  | s :: rest => simp [within_replace hleaf s, withinAll_replaceAll hleaf rest]

private theorem within_replace_body (hleaf : ∀ s, s.isLeaf → (onLeaf s).isLeaf) (body : Body) :
    (body.replace onExpr onLeaf).within = body.within.map (replace onExpr onLeaf) := by
  match body with
  | .block ss | .program ss => simp [Body.replace, Body.within, withinAll_replaceAll hleaf ss]
  | .foreign _ => simp [Body.replace, Body.within]

end

end Stmt

end LogicAsm
