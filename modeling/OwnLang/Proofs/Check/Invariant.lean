import Mathlib
import OwnLang.Proofs.Check.FollowingBody
import OwnLang.Proofs.Check.Stable

/-!
# What checking keeps

Checking a statement opens and closes blocks and loops, moves locals and declares new ones. A
property that does not look at any of that, but only at the entities and at what is known of the
locals (`Invariant`), is kept by all of checking a body. A property that looks at how many blocks
and loops are open (`Flat`) is kept by the parts that open none. As before, `resolveGlobal` and
the declaration of a local are left to the property, since they store values.
-/

namespace OwnLang.Check

open Surface (Ident)

/-- Properties of contexts that everything in checking keeps that opens no block and no loop. -/
structure Flat (ask : Asker) (P : Context → Prop) : Prop extends Stable ask P where
  everyAnswer : ∀ q, (ask q).Preserves P
  resembles : ∀ c d : Context, c.Resembles d → P c → P d
  declared : ∀ decl scope, (declStmt ask decl scope).Preserves P

/-- Properties of contexts that everything in checking keeps. -/
structure Invariant (ask : Asker) (P : Context → Prop) : Prop extends Stable ask P where
  everyAnswer : ∀ q, (ask q).Preserves P
  agrees : ∀ c d : Context, c.Agrees d → P c → P d
  bodyOpened : ∀ c f, f.locals = #[] → P c → P { c with frame := some f }
  bodyClosed : ∀ c, P c → P { c with frame := none }
  param : ∀ name t, (declareLocal name t false none).Preserves P
  receiver : ∀ name t, (declareLocal name t true none).Preserves P
  declared : ∀ decl scope, (declStmt ask decl scope).Preserves P

section Flat

variable {ask : Asker} {P : Context → Prop} (h : Flat ask P)

include h

theorem Flat.following : FollowingFlat (.keeping P) ask ask where
  toFollowing := h.toStable.following
  everyAnswer q := (h.everyAnswer q).follows
  resembles c d hcd := ⟨h.resembles c d hcd, trivial⟩
  declared decl scope := (h.declared decl scope).follows

theorem preserves_unreachableStmts (scope : Scope) (stmts : List Surface.Stmt) :
    (unreachableStmts ask scope stmts).Preserves P :=
  (follows_unreachableStmts h.following scope stmts).preserves

theorem preserves_checkStmts (scope : Scope) (stmts : List Surface.Stmt) :
    (checkStmts ask scope stmts).Preserves P :=
  (follows_checkStmts h.following scope stmts).preserves

theorem preserves_checkArm (block : Surface.Block) (dead : Bool) (scope : Scope) :
    (checkArm ask block dead scope).Preserves P :=
  (follows_checkArm h.following block dead scope).preserves

theorem preserves_checkBranches (scope : Scope) (b : Branching)
    (branches : List (Surface.Expr × Surface.Block)) :
    (checkBranches ask scope b branches).Preserves P :=
  (follows_checkBranches h.following scope b branches).preserves

theorem preserves_optionalStmt (scope : Scope) (stmt : Option Surface.Stmt) :
    (optionalStmt ask scope stmt).Preserves P :=
  (follows_optionalStmt h.following scope stmt).preserves

theorem preserves_checkIteration (form : LoopForm) (scope : Scope) :
    (checkIteration ask form scope).Preserves P :=
  (follows_checkIteration h.following form scope).preserves

theorem preserves_returnedValue (value : Option Surface.Expr) (returns : Ty) (span : Span)
    (scope : Scope) : (returnedValue ask value returns span scope).Preserves P :=
  (follows_returnedValue h.following value returns span scope).preserves

theorem preserves_checkStmt (hl : ∀ form scope, (loopStmt ask form scope).Preserves P)
    (s : Surface.Stmt) (scope : Scope) : (checkStmt ask s scope).Preserves P :=
  (follows_checkStmt h.following (fun form scope => (hl form scope).follows) s scope).preserves

/-- One step of nesting, statements and blocks included. -/
theorem Flat.step (hb : ∀ block scope, (checkBlock ask block scope).Preserves P)
    (hl : ∀ form scope, (loopStmt ask form scope).Preserves P)
    (hg : ∀ id usedAt, (resolveGlobal ask id usedAt).Preserves P) (q : Query) :
    (step ask q).Preserves P :=
  (h.following.step (fun block scope => (hb block scope).follows)
    (fun form scope => (hl form scope).follows)
    (fun id usedAt => (h.aliasResolved id usedAt).follows)
    (fun id usedAt => (h.structResolved id usedAt).follows) (fun id usedAt => (hg id usedAt).follows)
    q).preserves

end Flat

/-! ## Blocks and loops -/

section

variable {ask : Asker} {P : Context → Prop} (h : Invariant ask P)

include h

theorem Invariant.flat : Flat ask P :=
  ⟨h.toStable, h.everyAnswer, fun c d hcd => h.agrees c d hcd.toAgrees, h.declared⟩

theorem Invariant.following : FollowingBody (.keeping P) ask ask where
  toFollowingFlat := h.flat.following
  agrees c d hcd := ⟨h.agrees c d hcd, trivial⟩
  bodyOpened c _ _ := ⟨h.bodyOpened c _ rfl, trivial⟩
  bodyClosed c := ⟨h.bodyClosed c, trivial⟩
  bodyLeft _ := trivial
  param name t := (h.param name t).follows
  receiver name t := (h.receiver name t).follows

theorem preserves_checkBlock (block : Surface.Block) (scope : Scope) :
    (checkBlock ask block scope).Preserves P :=
  (follows_checkBlock h.following block scope).preserves

theorem preserves_loopStmt (form : LoopForm) (scope : Scope) :
    (loopStmt ask form scope).Preserves P :=
  (follows_loopStmt h.following form scope).preserves

/-- One step of nesting, statements and blocks included. -/
theorem Invariant.step (hg : ∀ id usedAt, (resolveGlobal ask id usedAt).Preserves P) (q : Query) :
    (step ask q).Preserves P :=
  h.flat.step (preserves_checkBlock h) (preserves_loopStmt h) hg q

/-! ## Bodies -/

theorem preserves_declareReceiver (decl : Surface.FnDecl) (owner : Option StructId)
    (params : List Ty) : (declareReceiver decl owner params).Preserves P :=
  (follows_declareReceiver h.following.toFollowingFlat h.following.declares decl owner params).preserves

theorem preserves_checkTypedBody (id : GlobalId) (decl : Surface.FnDecl) (owner : Option StructId)
    (display : String) (scope : Scope) (params : List Ty) (returns : Ty) :
    (checkTypedBody ask id decl owner display scope params returns).Preserves P :=
  (follows_checkTypedBody h.following.toFollowingFunction id decl owner display scope params
    returns).preserves

theorem preserves_checkBody (id : GlobalId) : (checkBody ask id).Preserves P :=
  (follows_checkBody h.following.toFollowingFunction id).preserves

end

/-- The declaration of a local keeps what the values before it and the new local keep. -/
theorem Stable.declStmt {ask : Asker} {P : Context → Prop} (h : Stable ask P)
    (hd : ∀ name t constant value, (declareLocal name t constant value).Preserves P)
    (decl : Surface.VarDecl) (scope : Scope) : (declStmt ask decl scope).Preserves P :=
  (follows_declStmt h.following (fun name t constant value => (hd name t constant value).follows) decl
    scope).preserves

theorem preserves_declStmt {ask : Asker} {P : Context → Prop}
    (hf : ∀ change, (modifyFrame change).Preserves P) (h : Stable ask P) (decl : Surface.VarDecl)
    (scope : Scope) : (declStmt ask decl scope).Preserves P :=
  h.declStmt (preserves_declareLocal hf) decl scope

end OwnLang.Check

/-!
## Programs

A property that the declaration of entities keeps as well (`Lasting`) is kept by checking all the
files of a program. `Session.Reachable` are the contexts of a session: files are checked, queries
are answered and instances are asked for in any order, and every one of these may fail on the way.
A lasting property that holds at the start holds in all of them.
-/

namespace OwnLang.Check

open Surface (Ident)

/-- Properties of contexts that checking programs keeps. -/
structure Lasting (ask : Asker) (P : Context → Prop) : Prop extends Invariant ask P where
  packages : ∀ c packages, P c → P { c with packages }
  entityDeclared : ∀ kind scope names, (declareEntity kind scope names).Preserves P
  templateDeclared : ∀ item scope, (declareTemplate item scope).Preserves P
  bodyTaken : ∀ c id rest, c.pending = id :: rest → P c →
    P { c with pending := rest, bodyDepth := (c.global id).depth }
  bodyAccepted : ∀ c d id body, checkBody ask id c = .ok body d → P c → P d →
    P { d with bodies := d.bodies.push body }

/-! ## Declarations -/

section

variable {P : Context → Prop}

theorem preserves_importsOf (hpackage : ∀ name, (packageId name).Preserves P)
    (package : PackageId) (written : List Ident) : (importsOf package written).Preserves P := by
  unfold importsOf
  refine Run.preserves_get.bind fun c => ?_
  dsimp only
  refine (Run.preserves_forIn (fun name imports => ?_) _ _).bind fun _ => Run.preserves_pure _
  refine (hpackage _).bind fun id => ?_
  split <;> exact Run.preserves_pure _

/-- A file declares packages and items. -/
theorem preserves_declareModule_of (hpackage : ∀ name, (packageId name).Preserves P)
    {file : Surface.Module} (hitem : ∀ item ∈ file.items, ∀ scope, (declareItem item scope).Preserves P) :
    (declareModule file).Preserves P := by
  unfold declareModule
  refine (hpackage _).bind fun package => (preserves_importsOf hpackage _ _).bind fun _ => ?_
  dsimp only
  refine (Run.preserves_forIn_mem (fun item hmem _ => ?_) _).bind fun _ => Run.preserves_pure _
  exact (hitem item hmem _).bind fun _ => Run.preserves_pure _

theorem preserves_packageId_of {name : String} (hnew : ∀ c : Context, c.findPackage name = none → P c →
    P { c with packages := c.packages.push { name } }) : (packageId name).Preserves P := by
  unfold packageId
  refine Run.preserves_get_bind fun c d hd hc => ?_
  split at hd
  · exact Run.preserves_pure _ hd hc
  · obtain hend | ⟨_, e, hmodify, hreturn⟩ := Run.ends_bind (Run.ends_get_bind hd)
    · obtain rfl := Run.ends_modify hend
      exact hnew c ‹_› hc
    · obtain rfl := Run.ends_modify (Run.ends_of_ok hmodify)
      exact Run.preserves_pure _ hreturn (hnew c ‹_› hc)

theorem preserves_declareTemplate_of {item : Surface.Item} {scope : Scope}
    (hmember : ∀ member, (addMember scope.package item.name member).Preserves P)
    (htemplate : ∀ c t, t.item = item → P c → P { c with templates := c.templates.push t }) :
    (declareTemplate item scope).Preserves P := by
  unfold declareTemplate
  exact Run.preserves_get.bind fun _ => (Run.preserves_modify fun c hc => htemplate c _ rfl hc).bind
    fun _ => hmember _

/-- An item is an entity or a template. -/
theorem preserves_declareItem_of {item : Surface.Item} {scope : Scope}
    (hmember : ∀ member, (addMember scope.package item.name member).Preserves P)
    (hentity : (declareEntity item.kind scope none).Preserves P)
    (htemplate : (declareTemplate item scope).Preserves P) : (declareItem item scope).Preserves P := by
  unfold declareItem
  split
  · refine hentity.bind fun member => ?_
    split
    · exact hmember _
    · exact Run.preserves_pure _
  · exact htemplate

variable (hpackages : ∀ c packages, P c → P { c with packages })

include hpackages

theorem preserves_packageId (name : String) : (packageId name).Preserves P :=
  preserves_packageId_of fun c _ hc => hpackages c _ hc

theorem preserves_addMember (package : PackageId) (name : Ident) (member : Member) :
    (addMember package name member).Preserves P :=
  Run.preserves_modify fun c hc => hpackages c _ hc

theorem preserves_declareTemplate {item : Surface.Item}
    (htemplate : ∀ c t, t.item = item → P c → P { c with templates := c.templates.push t })
    (scope : Scope) : (declareTemplate item scope).Preserves P :=
  preserves_declareTemplate_of (preserves_addMember hpackages _ _) htemplate

theorem preserves_declareItem {item : Surface.Item}
    (hentity : ∀ scope names, (declareEntity item.kind scope names).Preserves P)
    (htemplate : ∀ scope, (declareTemplate item scope).Preserves P) (scope : Scope) :
    (declareItem item scope).Preserves P :=
  preserves_declareItem_of (preserves_addMember hpackages _ _) (hentity scope none) (htemplate scope)

end

section

variable {ask : Asker} {P : Context → Prop} (h : Lasting ask P)

include h

theorem preserves_declareModule (file : Surface.Module) : (declareModule file).Preserves P :=
  preserves_declareModule_of (preserves_packageId h.packages) fun item _ =>
    preserves_declareItem h.packages (h.entityDeclared item.kind) (h.templateDeclared item)

/-! ## Passes -/

theorem Lasting.following : FollowingProgram (.keeping P) ask ask where
  toFollowingFunction := h.toInvariant.following.toFollowingFunction
  bodyTaken c _ _ hpending := ⟨h.bodyTaken c _ _ hpending, trivial⟩
  accepted c d id body hbody hmoves _ :=
    ⟨fun hc => h.bodyAccepted c d id body hbody hc (hmoves hc), trivial, trivial⟩

omit h in
/-- What is behind the declarations of a program keeps what the bodies keep. -/
theorem FollowingProgram.preserves_passes (h : FollowingProgram (.keeping P) ask ask) :
    (requireUnique >>= fun _ => resolveDeclarations ask >>= fun _ => checkPendingTo ask bodyBound >>=
      fun _ => checkEntry ask).Preserves P := h.passes.preserves

omit h in
/-- What the declarations of the files keep, and the bodies, the program keeps. -/
theorem FollowingProgram.preserves_modules (h : FollowingProgram (.keeping P) ask ask)
    {files : List Surface.Module} (hfiles : ∀ file ∈ files, (declareModule file).Preserves P) :
    (checkModulesWith ask files).Preserves P :=
  (Run.preserves_forIn_mem (fun file hmem _ => (hfiles file hmem).bind fun _ => Run.preserves_pure _)
    _).bind fun _ => h.preserves_passes

theorem preserves_checkModulesWith (files : List Surface.Module) :
    (checkModulesWith ask files).Preserves P :=
  h.following.preserves_modules fun file _ => preserves_declareModule h file

end

/-! ## Sessions -/

/-- What keeps a property under the assumption that nested answers keep it makes all answers keep
it. -/
theorem preserves_answerTo {P : Context → Prop}
    (h : ∀ ask : Asker, (∀ q, (ask q).Preserves P) → ∀ q, (step ask q).Preserves P) (n : Nat)
    (q : Query) : (answerTo n q).Preserves P := by
  induction n generalizing q with
  | zero => exact Run.preserves_stop _
  | succ n ih => exact h (answerTo n) ih q

end OwnLang.Check

namespace OwnLang.Session

/-- One request of a session. It may succeed or fail; a run that stops leaves no context. -/
inductive Step (c d : Context) : Prop where
  | modules (files : List Surface.Module) (h : (Check.checkModules files).Ends c d)
  | query (q : Query) (h : (Check.answer q).Ends c d)
  | instantiate (id : TemplateId) (args : List Ty) (span : Span)
      (h : (Check.instantiate Check.answer id args span).Ends c d)

/-- The contexts that further requests lead to. -/
abbrev Later : Context → Context → Prop := Relation.ReflTransGen Step

/-- The contexts of sessions. -/
def Reachable (c : Context) : Prop := ∃ options, Later { options } c

/-- What every request keeps, all requests keep. -/
theorem Later.keeps {P : Context → Prop} (h : Check.Lasting Check.answer P) {c d : Context}
    (hcd : Later c d) (hc : P c) : P d := by
  induction hcd with
  | refl => exact hc
  | tail _ step ih =>
    cases step with
    | modules files hs => exact Check.preserves_checkModulesWith h files hs ih
    | query q hs => exact h.everyAnswer q hs ih
    | instantiate id args span hs => exact h.instantiate id args span hs ih

end OwnLang.Session
