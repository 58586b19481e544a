import Mathlib
import OwnLang.Proofs.Check.Following

/-!
# What checking types and entities keeps

A property of contexts that the few primitive changes and the answers keep (`Stable`) is kept by
every part that checks a type, a declaration or an expression: every part follows itself in the
course that keeps the property.

Statements and blocks open and close blocks and loops, so they need more of a property than
expressions do: `Stable` says nothing of them. Nor does it of `resolveGlobal`, which stores a value
that some properties have to look at.
-/

namespace OwnLang.Check

open Surface (Ident)

/-- Properties of contexts that the primitive steps of checking expressions keep, and the answers to
the queries that these make. -/
structure Stable (ask : Asker) (P : Context → Prop) : Prop where
  answers : ∀ q : Query, q.isExpr → (ask q).Preserves P
  detached : ∀ {α : Type} {work : Check α}, work.Preserves P → (detached work).Preserves P
  consume : ∀ value, (consume value).Preserves P
  aliasStarted : ∀ c id, P c → P (c.modifyAlias id fun a => { a with state := .resolving })
  aliasDone : ∀ c id t, P c →
    P (c.modifyAlias id fun a => { a with resolved := some t, state := .complete })
  structResolved : ∀ id usedAt, (resolveStruct ask id usedAt).Preserves P
  macroDone : ∀ c id params returns, P c →
    P (c.modifyMacro id fun m => { m with params, returns, state := .complete })
  instantiate : ∀ id args span, (instantiate ask id args span).Preserves P

section

variable {ask : Asker} {P : Context → Prop} (ha : ∀ q : Query, q.isExpr → (ask q).Preserves P)

include ha

/-- Answers that keep a property follow themselves. -/
theorem follows_answers (q : Query) (hq : q.isExpr) : (ask q).Follows (.keeping P) (ask q) :=
  (ha q hq).follows

theorem preserves_complete (t : Ty) (span : Span) : (ask.complete t span).Preserves P :=
  (follows_complete (follows_answers ha) t span).preserves

theorem preserves_writtenType (t : Option Surface.TypeExpr) (scope : Scope) :
    ( resolveAnnotation ask t scope).Preserves P :=
  (follows_writtenType (follows_answers ha) t scope).preserves

theorem preserves_resolveFields (scope : Scope) (decls : List Surface.VarDecl) (done : List Field) :
    (resolveFields ask scope done decls).Preserves P :=
  (follows_resolveFields (follows_answers ha) scope decls done).preserves

theorem preserves_completeParams (params : List (Ty × Surface.Param)) :
    (completeParams ask params).Preserves P :=
  (follows_completeParams (follows_answers ha) params).preserves

theorem preserves_resolveAlias
    (hd : ∀ {α : Type} {work : Check α}, work.Preserves P → (detached work).Preserves P)
    (started : ∀ c id, P c → P (c.modifyAlias id fun a => { a with state := .resolving }))
    (done : ∀ c id t, P c →
      P (c.modifyAlias id fun a => { a with resolved := some t, state := .complete }))
    (id : AliasId) (usedAt : Span) : (resolveAlias ask id usedAt).Preserves P := by
  unfold resolveAlias
  refine Run.preserves_get.bind fun c => ?_
  dsimp only
  split
  · exact Run.preserves_pure _
  · exact Run.preserves_reject _ _
  · refine (Run.preserves_modify fun c hc => started c id hc).bind fun _ =>
      (hd (ha _ rfl)).bind fun t => ?_
    exact (Run.preserves_modify fun c hc => done c id _ hc).bind fun _ =>
      Run.preserves_pure _

theorem preserves_resolveStruct
    (hd : ∀ {α : Type} {work : Check α}, work.Preserves P → (detached work).Preserves P)
    (started : ∀ c id, P c → P (c.modifyStruct id fun d => { d with state := .resolving }))
    (done : ∀ c id fields, P c →
      P (c.modifyStruct id fun d => { d with fields, state := .complete }))
    (id : StructId) (usedAt : Span) : (resolveStruct ask id usedAt).Preserves P := by
  unfold resolveStruct
  refine Run.preserves_get.bind fun c => ?_
  extract_lets +onlyGivenNames d
  split
  · exact Run.preserves_pure _
  · exact Run.preserves_reject _ _
  · refine (Run.preserves_modify fun c hc => started c id hc).bind fun _ =>
      (hd (preserves_resolveFields ha _ _ _)).bind fun fields =>
        Run.preserves_get.bind fun c => ?_
    dsimp only
    split
    · exact (Run.preserves_fail _).bind fun _ =>
        Run.preserves_modify fun c hc => done c id _ hc
    · exact Run.preserves_modify fun c hc => done c id _ hc

end

section

variable {ask : Asker} {P : Context → Prop} (h : Stable ask P)

include h

theorem Stable.aliasResolved (id : AliasId) (usedAt : Span) : (resolveAlias ask id usedAt).Preserves P :=
  preserves_resolveAlias h.answers h.detached h.aliasStarted h.aliasDone id usedAt

theorem preserves_resolveMacro (id : MacroId) : (resolveMacro ask id).Preserves P := by
  unfold resolveMacro
  refine Run.preserves_get.bind fun c => ?_
  dsimp only
  split
  · exact Run.preserves_pure _
  · refine (Run.preserves_mapM (fun p => ?_) _).bind fun params =>
      (follows_returnType (follows_answers h.answers) _ _).preserves.bind fun returns =>
        Run.preserves_modify fun c hc => h.macroDone c id _ _ hc
    exact (follows_paramType (follows_answers h.answers) _ _).preserves.bind fun _ =>
      Run.preserves_pure _

/-- What is stable is kept in the course of every part. -/
theorem Stable.following : Following (.keeping P) ask ask where
  answers q hq := (h.answers q hq).follows
  consume value := (h.consume value).follows
  macroSigned id := (preserves_resolveMacro h id).follows
  instantiate id args span := (h.instantiate id args span).follows

theorem preserves_fnType (decl : Surface.FnDecl) (owner : Option StructId) (scope : Scope) :
    (fnType ask decl owner scope).Preserves P :=
  (follows_fnType h.following decl owner scope).preserves

theorem preserves_variableType (decl : Surface.VarDecl) (scope : Scope) :
    (variableType ask decl scope).Preserves P :=
  (follows_variableType h.following decl scope).preserves

theorem preserves_resolvePath (path : List Ident) (args : List Surface.TypeExpr) (scope : Scope) :
    (resolvePath ask path args scope).Preserves P :=
  (follows_resolvePath h.following path args scope).preserves

theorem preserves_receiverOf (base : Surface.Expr) (scope : Scope) :
    (receiverOf ask base scope).Preserves P :=
  (follows_receiverOf h.following base scope).preserves

theorem preserves_structMember (id : StructId) (member : Ident) :
    (structMember ask id member).Preserves P :=
  (follows_structMember h.following id member).preserves

theorem preserves_objectType (t : Surface.TypeExpr) (scope : Scope) :
    (objectType ask t scope).Preserves P :=
  (follows_objectType h.following t scope).preserves

theorem preserves_writtenFields (scope : Scope) (fields : List Field) (done : List FieldValue)
    (written : List (Ident × Surface.Expr)) :
    (writtenFields ask scope fields done written).Preserves P :=
  (follows_writtenFields h.following scope fields done written).preserves

theorem preserves_elementValues (scope : Scope) (element : Ty) (values : List Surface.Expr) :
    (elementValues ask scope element values).Preserves P :=
  (follows_elementValues h.following scope element values).preserves

theorem preserves_argumentValues (scope : Scope) (params : List Ty) (args : List Surface.Expr) :
    (argumentValues ask scope params args).Preserves P :=
  (follows_argumentValues h.following scope params args).preserves

theorem preserves_macroArguments (scope : Scope) (params : List MacroParam)
    (args : List Surface.Expr) : (macroArguments ask scope params args).Preserves P :=
  (follows_macroArguments h.following scope params args).preserves

theorem preserves_namedMacro (path : List Ident) (scope : Scope) :
    (namedMacro ask path scope).Preserves P :=
  (follows_namedMacro h.following path scope).preserves

theorem preserves_rawValue (e : Surface.Expr) (expected : Option Ty) (scope : Scope) :
    (rawValue ask e expected scope).Preserves P :=
  (follows_rawValue h.following e expected scope).preserves

theorem preserves_resolveGlobal
    (started : ∀ c id, P c → P (c.modifyGlobal id fun g => { g with state := .resolving }))
    (done : ∀ c id t value, P c →
      P (c.modifyGlobal id fun g => { g with type := some t, value, state := .complete }))
    (id : GlobalId) (usedAt : Span) : (resolveGlobal ask id usedAt).Preserves P := by
  unfold resolveGlobal
  refine Run.preserves_get.bind fun c => ?_
  extract_lets +onlyGivenNames g
  split
  · exact Run.preserves_pure _
  · exact Run.preserves_reject _ _
  · refine (Run.preserves_modify fun c hc => started c id hc).bind fun _ =>
      (h.detached ?_).bind fun resolved =>
        (Run.preserves_modify fun c hc => done c id _ _ hc).bind fun _ => Run.preserves_pure _
    split
    · exact (preserves_fnType h _ _ _).bind fun _ => Run.preserves_pure _
    · exact preserves_variableType h _ _

/-- One step of nesting: the answers that need `ask` keep what `ask` keeps. -/
theorem Stable.step (hg : ∀ id usedAt, (resolveGlobal ask id usedAt).Preserves P) (q : Query)
    (hq : q.isExpr) : (step ask q).Preserves P :=
  (h.following.step (fun id usedAt => (h.aliasResolved id usedAt).follows)
    (fun id usedAt => (h.structResolved id usedAt).follows) (fun id usedAt => (hg id usedAt).follows)
    q hq).preserves

end

end OwnLang.Check
