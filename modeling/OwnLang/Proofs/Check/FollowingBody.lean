import Mathlib
import OwnLang.Proofs.Check.Following
import OwnLang.Proofs.Check.Resemble

/-!
# Checking bodies and programs with further answers

The parts of checking that deal with statements follow the same parts over further answers, as those
do that deal with expressions. Where a block or a loop is open, a run that is cut short still closes
it: so what the course knows of contexts must not depend on what is open (`FollowingBody`).
-/

namespace OwnLang

namespace Check

open Surface (Ident)

/-- Answers follow other answers, in a course that opens no block and no loop. -/
structure FollowingFlat (C : Course Context) (ask ask' : Asker) : Prop
    extends Following C ask ask' where
  everyAnswer : ∀ q, (ask q).Follows C (ask' q)
  resembles : ∀ c d : Context, c.Resembles d → C.moves c d ∧ C.done c d
  declared : ∀ decl scope, (declStmt ask decl scope).Follows C (declStmt ask' decl scope)

/-- Answers follow other answers, in a course that comes through the frames of functions. -/
structure FollowingFunction (C : Course Context) (ask ask' : Asker) : Prop
    extends FollowingFlat C ask ask' where
  bodyOpened : ∀ (c : Context) id returns,
    C.moves c { c with frame := some { function := id, returns, blocks := [{}] } } ∧
      C.done c { c with frame := some { function := id, returns, blocks := [{}] } }
  bodyClosed : ∀ c : Context, C.moves c { c with frame := none } ∧ C.done c { c with frame := none }
  bodyLeft : ∀ c : Context, C.after { c with frame := none } c
  param : ∀ name t, (declareLocal name t false none).Follows C (declareLocal name t false none)
  receiver : ∀ name t, (declareLocal name t true none).Follows C (declareLocal name t true none)

/-- Answers follow other answers, in a course to which it does not matter what is open. -/
structure FollowingBody (C : Course Context) (ask ask' : Asker) : Prop
    extends FollowingFunction C ask ask' where
  agrees : ∀ c d : Context, c.Agrees d → C.moves c d ∧ C.done c d

variable {C : Course Context} {ask ask' : Asker} {α : Type}

theorem follows_frame : frame.Follows C frame := Run.follows_still fun _ => preserves_frame

theorem follows_isUnreachable : isUnreachable.Follows C isUnreachable :=
  follows_frame.bind fun _ => Run.follows_pure _

/-- A run that changes nothing but where control is follows itself. -/
theorem follows_light {x : Check α}
    (hC : ∀ c d : Context, c.Resembles d → C.moves c d ∧ C.done c d)
    (hx : ∀ {P : Context → Prop}, (∀ c d : Context, c.Resembles d → P c → P d) → x.Preserves P) :
    x.Follows C x := by
  intro c _
  have hends {d : Context} (hd : x.Ends c d) : C.moves c d ∧ C.done c d :=
    hC c d (hx (fun _ _ h h' => h'.trans h) hd (.refl c))
  exact Run.followsFrom_of_same (fun _ hd => (hends hd).1) fun _ _ hd => (hends (.inl ⟨_, hd⟩)).2

section Flat

variable (h : FollowingFlat C ask ask')

include h

theorem follows_change {change : Frame → Frame}
    (hf : ∀ f, (change f).facts = f.facts ∧ (change f).outline = f.outline) :
    (modifyFrame change).Follows C (modifyFrame change) :=
  follows_light h.resembles fun hP => preserves_modifyFrame hP hf

/-- What is changed of control in any case does not tell two runs apart. -/
theorem follows_leaving {x y : Check α} (hxy : x.Follows C y) {change : Frame → Frame}
    (hf : ∀ f, (change f).facts = f.facts ∧ (change f).outline = f.outline) :
    (x.andFinally fun c => { c with frame := c.frame.map change }).Follows C
      (y.andFinally fun c => { c with frame := c.frame.map change }) := by
  intro c hc
  have hchange (d : Context) := h.resembles d _ (d.resembles_reframe hf)
  refine ((hxy c hc).around (fun d hd => C.moves_trans hd (hchange d).1)
    (fun d hmoves hd => C.done_trans hmoves hd (hchange d).1 (hchange d).2) fun m d hmd => ?_).of_eq
      rfl rfl
  refine C.after_trans (C.after_of_moves (h.resembles _ m (m.resembles_reframe hf).symm).1) ?_
  exact C.after_trans hmd (C.after_of_moves (hchange d).1)

/-! ## Statements of a block -/

theorem follows_unreachableStmts (scope : Scope) (stmts : List Surface.Stmt) :
    (unreachableStmts ask scope stmts).Follows C (unreachableStmts ask' scope stmts) := by
  induction stmts with
  | nil => exact Run.follows_pure _
  | cons stmt rest ih =>
    exact (h.everyAnswer _).bind fun _ => ih.bind fun _ => Run.follows_pure _

theorem follows_checkStmts (scope : Scope) (stmts : List Surface.Stmt) :
    (checkStmts ask scope stmts).Follows C (checkStmts ask' scope stmts) := by
  induction stmts with
  | nil => exact Run.follows_pure _
  | cons stmt rest ih =>
    unfold checkStmts
    refine follows_frame.bind fun f => ?_
    split
    · exact (follows_light h.resembles fun hP => preserves_warnUnreachable hP _).bind fun _ =>
        (follows_change h fun _ => ⟨by rfl, by rfl⟩).bind fun _ =>
          (follows_unreachableStmts h _ _).bind fun _ =>
            (follows_change h fun _ => ⟨by rfl, by rfl⟩).bind fun _ => Run.follows_pure _
    · exact (h.everyAnswer _).bind fun _ =>
        follows_isUnreachable.bind fun _ => ih.bind fun _ => Run.follows_pure _

theorem follows_checkArm (block : Surface.Block) (dead : Bool) (scope : Scope) :
    (checkArm ask block dead scope).Follows C (checkArm ask' block dead scope) := by
  unfold checkArm
  split
  · refine (follows_light h.resembles fun hP => preserves_warnUnreachable hP _).bind fun _ =>
      (follows_change h fun _ => ⟨by rfl, by rfl⟩).bind fun _ => ?_
    exact follows_leaving h (h.everyAnswer _) fun _ => ⟨rfl, rfl⟩
  · exact h.everyAnswer _

theorem follows_scopeStmt (block : Surface.Block) (scope : Scope) :
    (scopeStmt ask block scope).Follows C (scopeStmt ask' block scope) :=
  (h.everyAnswer _).bind fun _ =>
    (follows_change h fun f => by simp).bind fun _ => Run.follows_pure _

/-! ## Branches -/

theorem follows_checkBranches (scope : Scope) (b : Branching)
    (branches : List (Surface.Expr × Surface.Block)) :
    (checkBranches ask scope b branches).Follows C (checkBranches ask' scope b branches) := by
  induction branches generalizing b with
  | nil => exact Run.follows_pure _
  | cons branch rest ih =>
    exact (h.everyAnswer _).bind fun _ => (follows_checkArm h _ _ _).bind fun _ =>
      (ih _).bind fun _ => Run.follows_pure _

theorem follows_checkOtherwise (scope : Scope) (b : Branching)
    (otherwise : Option Surface.Block) :
    (checkOtherwise ask scope b otherwise).Follows C (checkOtherwise ask' scope b otherwise) := by
  cases otherwise with
  | none => exact Run.follows_pure _
  | some body => exact (follows_checkArm h _ _ _).bind fun _ => Run.follows_pure _

theorem follows_condStmt (branches : List (Surface.Expr × Surface.Block))
    (otherwise : Option Surface.Block) (scope : Scope) :
    (condStmt ask branches otherwise scope).Follows C (condStmt ask' branches otherwise scope) :=
  (follows_checkBranches h _ _ _).bind fun _ => (follows_checkOtherwise h _ _ _).bind fun _ =>
    (follows_change h fun f => by simp).bind fun _ => Run.follows_pure _

/-! ## Loops -/

theorem follows_optionalStmt (scope : Scope) (stmt : Option Surface.Stmt) :
    (optionalStmt ask scope stmt).Follows C (optionalStmt ask' scope stmt) := by
  cases stmt with
  | none => exact Run.follows_pure _
  | some stmt => exact (h.everyAnswer _).map _

theorem follows_loopCondition (scope : Scope) (condition : Option Surface.Expr) :
    (loopCondition ask scope condition).Follows C (loopCondition ask' scope condition) := by
  cases condition with
  | none => exact Run.follows_pure _
  | some e => exact (h.everyAnswer _).bind fun _ => Run.follows_pure _

theorem follows_checkIteration (form : LoopForm) (scope : Scope) :
    (checkIteration ask form scope).Follows C (checkIteration ask' form scope) :=
  (follows_loopCondition h _ _).bind fun _ => (follows_checkArm h _ _ _).bind fun _ =>
    (follows_optionalStmt h _ _).bind fun _ => Run.follows_pure _

/-! ## Statements -/

theorem follows_updatedValue (place : Core.Place) (target : Surface.Expr)
    (op : Surface.ArithmeticOp) (value : Surface.Expr) (scope : Scope) :
    (updatedValue ask place target op value scope).Follows C
      (updatedValue ask' place target op value scope) :=
  (h.everyAnswer _).bind fun _ => .unless (Run.follows_pure _)

theorem follows_assignStmt (target : Surface.Expr) (op : Option Surface.ArithmeticOp)
    (value : Surface.Expr) (scope : Scope) :
    (assignStmt ask target op value scope).Follows C (assignStmt ask' target op value scope) := by
  unfold assignStmt
  refine (follows_requirePlace h.toFollowing _ _ _).bind fun place => .unless ?_
  beta_reduce
  extract_lets +onlyGivenNames store
  have hstore (source) : (store source).Follows C (store source) :=
    (h.consume _).bind fun _ =>
      (follows_light h.resembles fun hP => preserves_takeOwnership hP _ _).bind fun _ =>
        Run.follows_pure _
  split
  · exact (h.everyAnswer _).bind hstore
  · exact (follows_updatedValue h _ _ _ _ _).bind hstore

theorem follows_exprStmt (e : Surface.Expr) (scope : Scope) :
    (exprStmt ask e scope).Follows C (exprStmt ask' e scope) :=
  (follows_rawValue h.toFollowing _ _ _).bind fun _ => Run.follows_pure _

theorem follows_returnedValue (value : Option Surface.Expr) (returns : Ty) (span : Span)
    (scope : Scope) :
    (returnedValue ask value returns span scope).Follows C
      (returnedValue ask' value returns span scope) := by
  unfold returnedValue
  split
  · exact Run.follows_pure _
  · exact Run.follows_reject _ _
  · exact (follows_rawValue h.toFollowing _ _ _).bind fun _ => .unless (Run.follows_pure _)
  · exact (h.everyAnswer _).bind fun _ => (h.consume _).bind fun _ => Run.follows_pure _

theorem follows_returnStmt (value : Option Surface.Expr) (span : Span) (scope : Scope) :
    (returnStmt ask value span scope).Follows C (returnStmt ask' value span scope) :=
  follows_frame.bind fun _ => (follows_returnedValue h _ _ _ _).bind fun _ =>
    follows_frame.bind fun _ => (follows_change h fun f => by simp).bind fun _ =>
      Run.follows_pure _

theorem follows_checkStmt
    (hl : ∀ form scope, (loopStmt ask form scope).Follows C (loopStmt ask' form scope))
    (s : Surface.Stmt) (scope : Scope) :
    (checkStmt ask s scope).Follows C (checkStmt ask' s scope) := by
  refine .bind ?_ fun _ => Run.follows_pure _
  unfold stmtKind
  split
  · exact h.declared _ _
  · exact follows_assignStmt h _ _ _ _
  · exact follows_exprStmt h _ _
  · exact follows_returnStmt h _ _ _
  · exact follows_light h.resembles fun hP => preserves_jumpStmt hP _ _ _
  · exact follows_light h.resembles fun hP => preserves_jumpStmt hP _ _ _
  · exact follows_condStmt h _ _ _
  · exact hl _ _
  · exact hl _ _
  · exact follows_scopeStmt h _ _

/-- One step of nesting, statements and blocks included. -/
theorem FollowingFlat.step
    (hblock : ∀ block scope, (checkBlock ask block scope).Follows C (checkBlock ask' block scope))
    (hloop : ∀ form scope, (loopStmt ask form scope).Follows C (loopStmt ask' form scope))
    (halias : ∀ id usedAt, (resolveAlias ask id usedAt).Follows C (resolveAlias ask' id usedAt))
    (hstruct : ∀ id usedAt, (resolveStruct ask id usedAt).Follows C (resolveStruct ask' id usedAt))
    (hglobal : ∀ id usedAt, (resolveGlobal ask id usedAt).Follows C (resolveGlobal ask' id usedAt))
    (q : Query) : (step ask q).Follows C (step ask' q) := by
  cases q with
  | stmt s scope => exact follows_checkStmt h hloop _ _
  | block b scope => exact hblock _ _
  | _ => exact h.toFollowing.step halias hstruct hglobal _ rfl

/-! ## The parts of a body -/

section

variable (hd : ∀ name t constant,
  (declareLocal name t constant none).Follows C (declareLocal name t constant none))

include hd

omit h in
theorem follows_declareParams (params : List (Surface.Param × Ty)) :
    (declareParams params).Follows C (declareParams params) := by
  induction params with
  | nil => exact Run.follows_pure _
  | cons param rest ih =>
    exact (hd _ _ _).bind fun _ => ih.bind fun _ => Run.follows_pure _

theorem follows_declareReceiver (decl : Surface.FnDecl) (owner : Option StructId)
    (params : List Ty) :
    (declareReceiver decl owner params).Follows C (declareReceiver decl owner params) := by
  unfold declareReceiver
  split
  · split
    · exact (hd _ _ _).bind fun _ => (follows_change h fun _ => ⟨by rfl, by rfl⟩).bind fun _ =>
        Run.follows_pure _
    · exact Run.follows_pure _
  · exact Run.follows_pure _

theorem follows_bodyParts (decl : Surface.FnDecl) (owner : Option StructId) (params : List Ty)
    (scope : Scope) :
    (bodyParts ask decl owner params scope).Follows C (bodyParts ask' decl owner params scope) := by
  unfold bodyParts
  refine (follows_declareReceiver h hd _ _ _).bind fun receiver =>
    (follows_declareParams hd _).bind fun ids => ?_
  dsimp only
  split
  · exact (follows_checkStmts h _ _).bind fun _ => Run.follows_pure _
  · exact (Run.follows_pure _).bind fun _ => Run.follows_pure _

end

end Flat

section Body

variable (h : FollowingBody C ask ask')

include h

/-! ## Blocks and loops -/

theorem follows_reframe {change : Frame → Frame} (hf : ∀ f, (change f).facts = f.facts) :
    (modifyFrame change).Follows C (modifyFrame change) := by
  have hchange (c : Context) :=
    h.agrees c { c with frame := c.frame.map change } (c.agrees_reframe hf)
  exact fun c _ => Run.followsFrom_modify (hchange c).1 (hchange c).2

/-- What a block or a loop closes behind it does not tell two runs apart. -/
theorem follows_closing {x y : Check α} (hxy : x.Follows C y) {β γ : Type} {close : Check β}
    (change : Frame → Frame) (hchange : ∀ f, (change f).facts = f.facts)
    {value : Context → β} (hclose : ∀ c, close c = .ok (value c) { c with frame := c.frame.map change })
    {f g : α → β → Check γ} (hfg : ∀ a b, (f a b).Follows C (g a b)) :
    Run.Follows C (x.attempt >>= fun r => close >>= fun b => Run.ofExcept r >>= fun a => f a b)
      (y.attempt >>= fun r => close >>= fun b => Run.ofExcept r >>= fun a => g a b) := by
  refine hxy.closing hclose (fun c => ?_) hfg
  have hfinish := h.agrees c _ (c.agrees_reframe hchange)
  exact ⟨hfinish.1, hfinish.2,
    C.after_of_moves (h.agrees _ c (c.agrees_reframe hchange).symm).1⟩

theorem follows_checkBlock (block : Surface.Block) (scope : Scope) :
    (checkBlock ask block scope).Follows C (checkBlock ask' block scope) := by
  refine (follows_reframe h fun _ => by rfl).bind fun _ => ?_
  exact follows_closing h (follows_checkStmts h.toFollowingFlat _ _)
    (fun f => { f with blocks := f.blocks.tail }) (fun _ => rfl) (fun _ => rfl)
    fun _ _ => (follows_light h.resembles fun hP => preserves_settleMoves hP _).bind fun _ =>
      Run.follows_pure _

theorem follows_checkLoopParts (id : LoopId) (form : LoopForm) (scope : Scope) :
    (checkLoopParts ask id form scope).Follows C (checkLoopParts ask' id form scope) := by
  refine (follows_optionalStmt h.toFollowingFlat _ _).bind fun _ =>
    (follows_reframe h fun _ => by rfl).bind fun _ => ?_
  exact follows_closing h (follows_checkIteration h.toFollowingFlat _ _)
    (fun f => { f with loops := f.loops.tail }) (fun _ => rfl) (fun _ => rfl)
    fun _ _ => Run.follows_pure _

theorem follows_loopStmt (form : LoopForm) (scope : Scope) :
    (loopStmt ask form scope).Follows C (loopStmt ask' form scope) := by
  refine (follows_light h.resembles fun hP => preserves_newLoop hP).bind fun id =>
    (follows_reframe h fun _ => by rfl).bind fun _ => ?_
  refine follows_closing h (follows_checkLoopParts h _ _ _)
    (fun f => { f with blocks := f.blocks.tail }) (fun _ => rfl) (fun _ => rfl)
    fun loop header => (follows_light h.resembles fun hP => preserves_settleMoves hP _).bind
      fun _ => ?_
  dsimp only
  split
  · exact (follows_reframe h fun f => by simp).bind fun _ => Run.follows_pure _
  · exact Run.follows_pure _

end Body

section Function

variable (h : FollowingFunction C ask ask')

include h

/-! ## Bodies -/

theorem FollowingFunction.declares (name : Ident) (t : Ty) (constant : Bool) :
    (declareLocal name t constant none).Follows C (declareLocal name t constant none) := by
  cases constant
  · exact h.param name t
  · exact h.receiver name t

theorem follows_checkTypedBody (id : GlobalId) (decl : Surface.FnDecl) (owner : Option StructId)
    (display : String) (scope : Scope) (params : List Ty) (returns : Ty) :
    (checkTypedBody ask id decl owner display scope params returns).Follows C
      (checkTypedBody ask' id decl owner display scope params returns) := by
  refine (follows_completeParams h.toFollowing.answers _).bind fun _ => Run.Follows.bind
    (fun c _ => Run.followsFrom_modify (h.bodyOpened c id returns).1 (h.bodyOpened c id returns).2)
    fun _ => ?_
  let close : Check Frame := do
    let f ← frame
    modify fun c => { c with frame := none }
    return f
  have hclose (c : Context) : close c = .ok (c.frame.getD default) { c with frame := none } := rfl
  have hparts := follows_bodyParts h.toFollowingFlat h.declares decl owner params scope
  have hclosing := hparts.closing hclose
    (fun c => ⟨(h.bodyClosed c).1, (h.bodyClosed c).2, h.bodyLeft c⟩)
    fun parts f => (Run.follows_ofExcept (finalReturn f decl display)).bind fun last =>
      Run.follows_pure
        ({ function := id, params := parts.1, locals := f.locals, block := .mk (parts.2 ++ last) [],
           returns } : Body)
  simpa only [close, bind_assoc, pure_bind] using hclosing

theorem follows_checkBody (id : GlobalId) : (checkBody ask id).Follows C (checkBody ask' id) := by
  unfold checkBody
  refine Run.follows_get_bind fun c => ?_
  dsimp only
  split
  · exact Run.follows_reject _ _
  · refine (h.everyAnswer _).bind fun t => ?_
    split
    · exact follows_checkTypedBody h _ _ _ _ _ _ _
    · exact Run.follows_reject _ _

end Function

/-- The declaration of a local follows itself if the entry of the local does. -/
theorem follows_declStmt (h : Following C ask ask')
    (hdeclare : ∀ name t constant value,
      (declareLocal name t constant value).Follows C (declareLocal name t constant value))
    (decl : Surface.VarDecl) (scope : Scope) :
    (declStmt ask decl scope).Follows C (declStmt ask' decl scope) := by
  unfold declStmt
  refine (follows_writtenType h.answers _ _).bind fun declared => ?_
  extract_lets +onlyGivenNames missing withValue withValue'
  have hvalue (value) : (withValue value).Follows C (withValue' value) := by
    dsimp -zeta only [withValue, withValue']
    extract_lets +onlyGivenNames known withType withType'
    have htype (t) : (withType t).Follows C (withType' t) := by
      refine (follows_requireValueType _ _).bind fun _ => (follows_complete h.answers _ _).bind
        fun _ => ?_
      extract_lets +onlyGivenNames declare
      have hlocal (u) : (declare u).Follows C (declare u) :=
        (hdeclare _ _ _ _).bind fun _ => Run.follows_pure _
      split
      · exact (h.consume _).bind hlocal
      · exact .unless (hlocal ⟨⟩)
    split
    · exact (Run.follows_pure _).bind htype
    · exact (Run.follows_pure _).bind htype
    · exact (Run.follows_reject _ _).bind htype
  split
  · exact (Run.follows_pure _).bind hvalue
  · exact ((h.answers _ rfl).map _).bind hvalue

end Check

end OwnLang

/-!
## Programs

The passes that check the files of a program follow the same passes over further answers. The first
pass declares the entities of the files and puts no questions; what is behind it begins with
`requireUnique`.
-/

namespace OwnLang.Check

open Surface (Ident)

variable {C : Course Context} {ask ask' : Asker}

/-- Answers follow other answers, in a course in which bodies may be accepted. -/
structure FollowingProgram (C : Course Context) (ask ask' : Asker) : Prop
    extends FollowingFunction C ask ask' where
  bodyTaken : ∀ (c : Context) id rest, c.pending = id :: rest →
    C.moves c { c with pending := rest, bodyDepth := (c.global id).depth } ∧
      C.done c { c with pending := rest, bodyDepth := (c.global id).depth }
  accepted : ∀ c d id body, checkBody ask' id c = .ok body d → C.moves c d → C.done c d →
    C.moves c { d with bodies := d.bodies.push body } ∧
      C.done c { d with bodies := d.bodies.push body } ∧
        C.after d { d with bodies := d.bodies.push body }

/-! ## Declarations are resolved -/

theorem follows_requireUnique : requireUnique.Follows C requireUnique :=
  Run.follows_still fun _ => preserves_requireUnique

section

variable (h : Following C ask ask')

include h

theorem follows_resolveMember (name : Ident) (member : Member) :
    (resolveMember ask name member).Follows C (resolveMember ask' name member) := by
  unfold resolveMember
  split
  · refine (h.answers _ rfl).bind fun _ => Run.follows_get_bind fun c =>
      (Run.follows_forIn (fun method _ => ?_) _ _).bind fun _ => Run.follows_pure _
    exact (h.answers _ rfl).bind fun _ => Run.follows_pure _
  · exact (h.answers _ rfl).bind fun _ => Run.follows_pure _
  · exact Run.follows_pure _
  · exact Run.follows_pure _

theorem follows_resolveDeclarations :
    (resolveDeclarations ask).Follows C (resolveDeclarations ask') := by
  unfold resolveDeclarations
  refine Run.follows_get_bind fun c => (Run.follows_forIn (fun i _ => ?_) _ _).bind fun _ =>
    Run.follows_get_bind fun c => (Run.follows_forIn (fun member _ => ?_) _ _).bind fun _ =>
      Run.follows_get_bind fun c => (Run.follows_forIn (fun i _ => ?_) _ _).bind fun _ =>
        Run.follows_pure _
  · exact Run.follows_get_bind fun _ => (h.answers _ rfl).bind fun _ => Run.follows_pure _
  · exact (follows_resolveMember h _ _).bind fun _ => Run.follows_pure _
  · exact (h.macroSigned _).bind fun _ => Run.follows_pure _

end

/-! ## Bodies are checked -/

/-- Checks a body, and keeps it. -/
def acceptBody (ask : Asker) (id : GlobalId) : Check Unit := do
  let body ← checkBody ask id
  modify fun c => { c with bodies := c.bodies.push body }

theorem checkPendingTo_succ (ask : Asker) (n : Nat) : checkPendingTo ask (n + 1) = (do
    let c ← get
    match c.pending with
    | [] => return ()
    | id :: rest => do
      set { c with pending := rest, bodyDepth := (c.global id).depth }
      acceptBody ask id
      checkPendingTo ask n) := by
  simp only [acceptBody, bind_assoc]
  rfl

theorem follows_acceptBody (h : FollowingProgram C ask ask') (id : GlobalId) :
    (acceptBody ask id).Follows C (acceptBody ask' id) := by
  intro c hc
  refine ((follows_checkBody h.toFollowingFunction id c hc).written (fun d _ hd => hd)
    (fun body d e hbody hd hdone he => ?_) fun body d _ e hbody hd hdone he => ?_).of_eq rfl rfl
  · obtain rfl := Run.ends_modify he
    obtain ⟨hmoves, -, hafter⟩ := h.accepted c d id body hbody hd hdone
    exact ⟨hmoves, hafter⟩
  · obtain rfl := Run.ends_modify (Run.ends_of_ok he)
    exact (h.accepted c d id body hbody hd hdone).2.1

theorem follows_checkPendingTo (h : FollowingProgram C ask ask') (n : Nat) :
    (checkPendingTo ask n).Follows C (checkPendingTo ask' n) := by
  induction n with
  | zero => exact Run.follows_stop _
  | succ n ih =>
    intro c hc
    rw [checkPendingTo_succ, checkPendingTo_succ]
    refine Run.followsFrom_get_bind ?_
    split
    · exact Run.follows_pure _ c hc
    · rename_i id rest hpending
      let start : Context := { c with pending := rest, bodyDepth := (c.global id).depth }
      have hstart := h.bodyTaken c id rest hpending
      have hset : Run.FollowsFrom C c (set start) (set start) :=
        Run.followsFrom_modify (f := fun _ => start) hstart.1 hstart.2
      exact hset.bind hc fun _ => (follows_acceptBody h id).bind fun _ => ih

theorem FollowingFlat.entered (h : FollowingFlat C ask ask') (c : Context) (entry : Option GlobalId) :
    C.moves c { c with entry } ∧ C.done c { c with entry } :=
  h.resembles c _ ⟨{ Context.Agrees.refl c with }, rfl⟩

/-- The entry point of a program is looked up. -/
theorem follows_checkEntry (h : Following C ask ask')
    (hentered : ∀ (c : Context) entry, C.moves c { c with entry } ∧ C.done c { c with entry }) :
    (checkEntry ask).Follows C (checkEntry ask') := by
  unfold checkEntry
  refine Run.follows_get_bind fun c => ?_
  dsimp only
  split
  · split
    · exact Run.follows_reject _ _
    · exact Run.follows_pure _
  · refine .unless ((h.answers _ rfl).bind fun t => .unless fun c _ => ?_)
    exact Run.followsFrom_modify (hentered c _).1 (hentered c _).2
  · exact Run.follows_reject _ _

/-- What is behind the declarations of a program. -/
theorem FollowingProgram.passes (h : FollowingProgram C ask ask') :
    Run.Follows C
      (requireUnique >>= fun _ => resolveDeclarations ask >>= fun _ => checkPendingTo ask bodyBound >>=
        fun _ => checkEntry ask)
      (requireUnique >>= fun _ => resolveDeclarations ask' >>= fun _ => checkPendingTo ask' bodyBound >>=
        fun _ => checkEntry ask') :=
  follows_requireUnique.bind fun _ => (follows_resolveDeclarations h.toFollowing).bind fun _ =>
    (follows_checkPendingTo h bodyBound).bind fun _ =>
      follows_checkEntry h.toFollowing h.toFollowingFlat.entered

end OwnLang.Check
