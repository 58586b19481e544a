import Mathlib
import OwnLang.Proofs.Emit.FlowBody
import OwnLang.Proofs.Emit.LinkingValue

/-!
# What statements refer to

The statements of a typed body whose structs are declared refer to introduced names only
(`Emit.linking_emitStmt`).
-/

namespace OwnLang

open Ir (Operand Build)

namespace Emit

open Linkage

variable {L : Linkage}

/-! ## Statements that do not branch -/

theorem linking_loopLabels (id : LoopId) : Linking L (loopLabels id) :=
  linking_reading fun hrun hs => hs.loops _ (Site.loopLabels_mem hrun)

theorem linking_isTerminated : Linking L isTerminated := linking_reading fun _ _ => trivial

theorem linking_enterLoop (id : LoopId) {labels : LoopLabels} (h : L.Allows labels) :
    Linking L (enterLoop id labels) where
  toExtending := inferInstance
  links hrun hs _ := by
    cases hrun
    exact ⟨{ hs with loops := List.forall_mem_cons.mpr ⟨h, hs.loops⟩ }, trivial⟩

variable {locals : Array Local} {returns : Ty}

theorem linking_emitDeclare (id : LocalId) {value : Option Core.Expr}
    (ht : ∀ v, value = some v → v.Typed (L.context.envWith locals)) (hk : L.context.Knows value) :
    Linking L (emitDeclare id value) := by
  unfold emitDeclare
  cases value with
  | none =>
    exact (linking_slot id).bind fun (address, t) hslot =>
      linking_inContext (linking_store (allows_zeroOf hslot.2) hslot.1)
  | some value =>
    exact (linking_slot id).bind fun (address, t) hslot =>
      (linking_emitExpr value (ht value rfl) hk).bind fun content hcontent => linking_store hcontent hslot.1

theorem linking_emitAssign {target : Core.Place} {value : Core.Expr} (releasePrior : Bool)
    (htarget : target.Typed (L.context.envWith locals)) (hvalue : value.Typed (L.context.envWith locals))
    (hk : L.context.Knows target) (hk' : L.context.Knows value) :
    Linking L (emitAssign target value releasePrior) := by
  unfold emitAssign
  refine (linking_emitExpr value hvalue hk').bind fun content hcontent => ?_
  refine (linking_emitPlace target htarget hk).bind fun address haddress => ?_
  have hstore := linking_store hcontent haddress
  split
  · refine (linking_irType hk.placeType).bind fun type htype => (linking_load htype haddress).bind fun prior h => ?_
    exact (linking_release h hk.placeType).seq hstore
  · exact hstore

theorem linking_emitExprStmt {value : Core.Expr} (unused : Bool)
    (ht : value.Typed (L.context.envWith locals)) (hk : L.context.Knows value) :
    Linking L (emitExprStmt value unused) :=
  (linking_emitExpr value ht hk).bind fun _ hresult => .ite (linking_release hresult hk.type) (linking_pure trivial)

theorem linking_emitReturn {value : Option Core.Expr} (drops : List LocalId)
    (ht : ∀ v, value = some v → v.Typed (L.context.envWith locals)) (hk : L.context.Knows value) :
    Linking L (emitReturn value drops) := by
  have hleave (result : Option Operand) (h : L.Allows result) :
      Linking L (do dropLocals drops; build (Build.ret result)) :=
    (linking_dropLocals drops).seq (linking_ret h)
  unfold emitReturn
  cases value with
  | none => exact hleave none allows_none
  | some value =>
    have hvalue : Linking L (some <$> emitExpr value) := by
      rw [map_eq_pure_bind]
      exact (linking_emitExpr value (ht value rfl) hk).bind fun _ h => linking_pure (allows_some.mpr h)
    exact hvalue.bind hleave

theorem linking_emitJump (id : LoopId) (drops : List LocalId) {label : LoopLabels → Ir.Label}
    (h : ∀ labels, L.Allows labels → L.Allows (label labels)) : Linking L (emitJump id drops label) := by
  unfold emitJump
  exact (linking_loopLabels id).bind fun labels hlabels =>
    (linking_dropLocals drops).seq (linking_br (h labels hlabels))

/-! ## Loops and branches -/

theorem linking_emitLoopTest {condition : Option Core.Expr} {first done : Ir.Label}
    (ht : ∀ test, condition = some test → test.Typed (L.context.envWith locals))
    (hk : L.context.Knows condition) (hfirst : L.Allows first) (hdone : L.Allows done) :
    Linking L (emitLoopTest condition first done) := by
  unfold emitLoopTest
  cases condition with
  | none => exact linking_br hfirst
  | some test =>
    refine .ite (linking_br hfirst) ?_
    exact (linking_emitExpr test (ht test rfl) hk).bind fun value h => linking_condBr h hfirst hdone

theorem linking_emitLoop (id : LoopId) {condition : Option Core.Expr} {body step : Emit Unit}
    (ht : ∀ test, condition = some test → test.Typed (L.context.envWith locals))
    (hk : L.context.Knows condition) (hbody : Linking L body) (hstep : Linking L step)
    (exitDrops : List LocalId) : Linking L (emitLoop id condition body step exitDrops) := by
  unfold emitLoop
  refine .newLabel fun check => .newLabel fun first => .newLabel fun next => .newLabel fun done => ?_
  refine (linking_enterLoop id ⟨allows_numbered, allows_numbered⟩).seq ?_
  refine (linking_placeLabel allows_numbered).seq ?_
  refine (linking_emitLoopTest ht hk allows_numbered allows_numbered).seq ?_
  refine (linking_placeLabel allows_numbered).seq (hbody.seq ?_)
  refine (linking_placeLabel allows_numbered).seq (hstep.seq ((linking_br allows_numbered).seq ?_))
  exact (linking_placeLabel allows_numbered).seq (linking_dropLocals exitDrops)

theorem linking_emitBranch {condition : Core.Expr} {body : Emit Unit} {done : Ir.Label}
    (ht : condition.Typed (L.context.envWith locals)) (hk : L.context.Knows condition)
    (hbody : Linking L body) (hdone : L.Allows done) : Linking L (emitBranch condition body done) := by
  have := hbody.toExtending
  have hclose (otherwise : Nat) : Linking L (closeBranch done (.numbered otherwise)) := by
    unfold closeBranch
    refine linking_isTerminated.bind fun closed _ => ?_
    split
    · exact (linking_br hdone).seq (linking_placeLabel allows_numbered)
    · exact linking_placeLabel allows_numbered
  rw [emitBranch_eq]
  refine (linking_emitExpr condition ht hk).bind fun value hvalue => ?_
  refine .newLabel fun taken => .newLabel fun otherwise => ?_
  refine (linking_condBr hvalue allows_numbered allows_numbered).seq ?_
  exact (linking_placeLabel allows_numbered).seq (hbody.seq (hclose otherwise))

mutual

theorem linking_emitBlock : (b : Core.Block) → b.Typed (L.context.envWith locals) returns →
    L.context.Knows b → Linking L (emitBlock b)
  | .mk stmts drops, ht, hk => by
    have htyped : ∀ s ∈ stmts, s.Typed (L.context.envWith locals) returns := by
      cases ht
      assumption
    unfold emitBlock
    refine (linking_emitStmts stmts htyped (Context.knows_block.mp hk)).seq ?_
    exact linking_isTerminated.bind fun _ _ => .ite (linking_dropLocals drops) (linking_pure trivial)

theorem linking_emitStmts : (stmts : List Core.Stmt) →
    (∀ s ∈ stmts, s.Typed (L.context.envWith locals) returns) → L.context.Knows stmts →
    Linking L (emitStmts stmts)
  | [], _, _ => by
    unfold emitStmts
    exact linking_pure trivial
  | s :: rest, ht, hk => by
    obtain ⟨hs, hrest⟩ := Context.knows_cons.mp hk
    have hmore := linking_emitStmts rest (fun s hs => ht s (List.mem_cons_of_mem _ hs)) hrest
    unfold emitStmts
    split
    · exact (linking_emitStmt s (ht s List.mem_cons_self) hs).seq hmore
    · exact hmore

theorem linking_emitStmt : (s : Core.Stmt) → s.Typed (L.context.envWith locals) returns →
    L.context.Knows s → Linking L (emitStmt s)
  | .mk kind span unreachable, ht, hk => by
    unfold emitStmt
    exact linking_emitStmtKind span unreachable kind ht hk

theorem linking_emitStmtKind (span : Span) (unreachable : Bool) : (kind : Core.StmtKind) →
    (Core.Stmt.mk kind span unreachable).Typed (L.context.envWith locals) returns → L.context.Knows kind →
    Linking L (emitStmtKind kind)
  | .declare id value, ht, hk => by
    have htyped : ∀ v, value = some v → v.Typed (L.context.envWith locals) := by
      cases ht with
      | declare _ hvalue => exact fun v hv => (hvalue v hv).1
    unfold emitStmtKind
    exact linking_emitDeclare id htyped (Context.knows_declare.mp hk)
  | .assign target value releasePrior, ht, hk => by
    obtain ⟨hktarget, hkvalue⟩ := Context.knows_assign.mp hk
    unfold emitStmtKind
    cases ht with
    | assign htarget _ hvalue _ => exact linking_emitAssign releasePrior htarget hvalue hktarget hkvalue
  | .expr value unused, ht, hk => by
    unfold emitStmtKind
    cases ht with
    | expr hvalue => exact linking_emitExprStmt unused hvalue hk
  | .ret value drops, ht, hk => by
    have htyped : ∀ v, value = some v → v.Typed (L.context.envWith locals) := by
      cases ht with
      | ret hvalue _ => exact fun v hv => (hvalue v hv).1
    unfold emitStmtKind
    exact linking_emitReturn drops htyped (Context.knows_ret.mp hk)
  | .brk id drops, _, _ => by
    unfold emitStmtKind
    exact linking_emitJump id drops fun _ h => h.2
  | .cont id drops, _, _ => by
    unfold emitStmtKind
    exact linking_emitJump id drops fun _ h => h.1
  | .cond branches otherwise, ht, hk => by
    obtain ⟨hkbranches, hkotherwise⟩ := Context.knows_cond.mp hk
    have htyped : (∀ branch ∈ branches, branch.1.Typed (L.context.envWith locals)) ∧
        (∀ branch ∈ branches, branch.2.Typed (L.context.envWith locals) returns) ∧
          ∀ b, otherwise = some b → b.Typed (L.context.envWith locals) returns := by
      cases ht with
      | cond htests hbodies hotherwise => exact ⟨fun branch hb => (htests branch hb).1, hbodies, hotherwise⟩
    have hotherwise := linking_emitOptionalBlock otherwise htyped.2.2 hkotherwise
    unfold emitStmtKind
    refine .newLabel fun done => ?_
    have hdone : L.Allows (Ir.Label.numbered done) := allows_numbered
    exact (linking_emitBranches hdone branches hotherwise htyped.1 htyped.2.1 hkbranches).seq
      (linking_placeLabel hdone)
  | .loop id init condition step body exitDrops, ht, hk => by
    obtain ⟨hkinit, hktest, hkstep, hkbody⟩ := Context.knows_loop.mp hk
    unfold emitStmtKind
    cases ht with
    | loop hinit htest hstep hbody =>
      refine (linking_emitOptionalStmt init hinit hkinit).seq ?_
      exact linking_emitLoop id (fun test h => (htest test h).1) hktest (linking_emitBlock body hbody hkbody)
        (linking_emitOptionalStmt step hstep hkstep) exitDrops
  | .scope block, ht, hk => by
    have htyped : block.Typed (L.context.envWith locals) returns := by
      cases ht
      assumption
    unfold emitStmtKind
    exact linking_emitBlock block htyped hk

theorem linking_emitBranches {done : Ir.Label} (hdone : L.Allows done) {otherwise : Emit Unit} :
    (branches : List (Core.Expr × Core.Block)) → Linking L otherwise →
    (∀ branch ∈ branches, branch.1.Typed (L.context.envWith locals)) →
    (∀ branch ∈ branches, branch.2.Typed (L.context.envWith locals) returns) → L.context.Knows branches →
    Linking L (emitBranches done branches otherwise)
  | [], hotherwise, _, _, _ => by
    unfold emitBranches
    exact hotherwise
  | (condition, body) :: rest, hotherwise, htests, hbodies, hk => by
    obtain ⟨hkbranch, hkrest⟩ := Context.knows_cons.mp hk
    obtain ⟨hkcondition, hkbody⟩ := Context.knows_pair.mp hkbranch
    have hbody := linking_emitBlock body (hbodies _ List.mem_cons_self) hkbody
    have hrest := linking_emitBranches hdone rest hotherwise (fun b hb => htests b (List.mem_cons_of_mem _ hb))
      (fun b hb => hbodies b (List.mem_cons_of_mem _ hb)) hkrest
    unfold emitBranches
    cases condition.known? with
    | none => exact (linking_emitBranch (htests _ List.mem_cons_self) hkcondition hbody hdone).seq hrest
    | some known =>
      cases known with
      | false => exact hrest
      | true => exact hbody

theorem linking_emitOptionalBlock : (b : Option Core.Block) →
    (∀ block, b = some block → block.Typed (L.context.envWith locals) returns) → L.context.Knows b →
    Linking L (emitOptionalBlock b)
  | none, _, _ => by
    unfold emitOptionalBlock
    exact linking_pure trivial
  | some b, ht, hk => by
    unfold emitOptionalBlock
    exact linking_emitBlock b (ht b rfl) hk

theorem linking_emitOptionalStmt : (s : Option Core.Stmt) →
    (∀ stmt, s = some stmt → stmt.Typed (L.context.envWith locals) returns) → L.context.Knows s →
    Linking L (emitOptionalStmt s)
  | none, _, _ => by
    unfold emitOptionalStmt
    exact linking_pure trivial
  | some s, ht, hk => by
    unfold emitOptionalStmt
    exact linking_emitStmt s (ht s rfl) hk

end

end Emit

end OwnLang
