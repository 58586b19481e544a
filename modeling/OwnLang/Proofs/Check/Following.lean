import Mathlib
import OwnLang.Proofs.Check.Still
import OwnLang.Proofs.Follow

/-!
# Checking with further answers

The parts of checking are written over `ask`. So where the answers to queries follow other answers
as far as they come, every part that checks a type, a declaration or an expression follows the same
part over the other answers (`Following`): there is one lemma for each part, and
`Following.step` puts them together. What the few parts do that write entities is left to the
course.
-/

namespace OwnLang.Check

open Surface (Ident)

/-- Answers to the queries that expressions make follow other answers, and so do the parts of
checking that write what the answers are about. -/
structure Following (C : Course Context) (ask ask' : Asker) : Prop where
  answers : ∀ q : Query, q.isExpr → (ask q).Follows C (ask' q)
  consume : ∀ value, (consume value).Follows C (consume value)
  macroSigned : ∀ id, (resolveMacro ask id).Follows C (resolveMacro ask' id)
  instantiate : ∀ id args span,
    (instantiate ask id args span).Follows C (instantiate ask' id args span)

variable {C : Course Context} {ask ask' : Asker}

theorem follows_requireValueType (t : Ty) (span : Span) :
    (requireValueType t span).Follows C (requireValueType t span) :=
  Run.follows_still fun _ => preserves_requireValueType _ _

/-! ## Parts that need answers only -/

section

variable (ha : ∀ q : Query, q.isExpr → (ask q).Follows C (ask' q))

include ha

theorem follows_complete (t : Ty) (span : Span) :
    (ask.complete t span).Follows C (ask'.complete t span) := by
  unfold Asker.complete
  split
  · exact ha _ rfl
  · exact Run.follows_pure _

theorem follows_writtenType (t : Option Surface.TypeExpr) (scope : Scope) :
    ( resolveAnnotation ask t scope).Follows C ( resolveAnnotation ask' t scope) := by
  cases t with
  | none => exact Run.follows_pure _
  | some t => exact (ha _ rfl).map _

theorem follows_resolveField (scope : Scope) (before : List Field) (decl : Surface.VarDecl) :
    (resolveField ask scope before decl).Follows C (resolveField ask' scope before decl) := by
  unfold resolveField
  extract_lets +onlyGivenNames declare declare'
  have hdeclare : (declare ⟨⟩).Follows C (declare' ⟨⟩) := by
    refine (follows_writtenType ha _ _).bind fun declared => ?_
    extract_lets +onlyGivenNames withDefault withDefault'
    have hdefault (default) : (withDefault default).Follows C (withDefault' default) := by
      dsimp -zeta only [withDefault, withDefault']
      extract_lets +onlyGivenNames withType withType'
      have htype (t) : (withType t).Follows C (withType' t) :=
        (follows_requireValueType _ _).bind fun _ =>
          (follows_complete ha _ _).bind fun _ => .unless (Run.follows_pure _)
      split
      · exact (Run.follows_pure _).bind htype
      · exact (Run.follows_pure _).bind htype
      · exact (Run.follows_reject _ _).bind htype
    split
    · exact (Run.follows_pure _).bind hdefault
    · exact ((ha _ rfl).map _).bind hdefault
  split
  · exact (Run.follows_fail _).bind fun _ => hdeclare
  · exact hdeclare

theorem follows_resolveFields (scope : Scope) (decls : List Surface.VarDecl) (done : List Field) :
    (resolveFields ask scope done decls).Follows C (resolveFields ask' scope done decls) := by
  induction decls generalizing done with
  | nil => exact Run.follows_pure _
  | cons decl rest ih => exact (follows_resolveField ha _ _ _).bind fun _ => ih _

theorem follows_paramType (t : Surface.TypeExpr) (scope : Scope) :
    (paramType ask t scope).Follows C (paramType ask' t scope) :=
  (ha _ rfl).bind fun _ => (follows_requireValueType _ _).bind fun _ => Run.follows_pure _

theorem follows_returnType (t : Option Surface.TypeExpr) (scope : Scope) :
    (returnType ask t scope).Follows C (returnType ask' t scope) :=
  (follows_writtenType ha _ _).bind fun _ => Run.follows_pure _

theorem follows_completeParams (params : List (Ty × Surface.Param)) :
    (completeParams ask params).Follows C (completeParams ask' params) := by
  induction params with
  | nil => exact Run.follows_pure _
  | cons param rest ih => exact (follows_complete ha _ _).bind fun _ => ih

end

section

variable (h : Following C ask ask')

include h

/-! ## Types -/

theorem follows_types (written : List Surface.TypeExpr) (scope : Scope) :
    (ask.types written scope).Follows C (ask'.types written scope) :=
  Run.follows_mapM (fun t => h.answers (.type t scope) rfl) written

theorem follows_arraySize (size : Surface.Expr) (scope : Scope) :
    (arraySize ask size scope).Follows C (arraySize ask' size scope) := by
  unfold arraySize
  refine (h.answers _ rfl).bind fun value => ?_
  split
  · split
    · exact Run.follows_pure _
    · exact Run.follows_reject _ _
  · exact Run.follows_reject _ _

theorem follows_arrayType (element : Surface.TypeExpr) (constant : Bool)
    (size : Option Surface.Expr) (scope : Scope) :
    (arrayType ask element constant size scope).Follows C
      (arrayType ask' element constant size scope) := by
  unfold arrayType
  refine (h.answers _ rfl).bind fun held => (follows_requireValueType _ _).bind fun _ => ?_
  split
  · exact Run.follows_pure _
  · exact (follows_arraySize h _ _).bind fun _ =>
      (follows_complete h.answers _ _).bind fun _ => Run.follows_pure _

theorem follows_namedType (path : List Ident) (args : List Surface.TypeExpr) (span : Span)
    (scope : Scope) :
    (namedType ask path args span scope).Follows C (namedType ask' path args span scope) := by
  unfold namedType
  split
  · exact Run.follows_pure _
  · refine Run.follows_get_bind fun c => (Run.follows_ofExcept _).bind fun member => ?_
    split
    · split
      · exact Run.follows_get_bind fun _ => Run.follows_pure _
      · exact Run.follows_reject _ _
    · split
      · exact h.answers _ rfl
      · exact Run.follows_reject _ _
    · split
      · exact Run.follows_reject _ _
      · refine (follows_types h _ _).bind fun types =>
          (h.instantiate _ _ _).bind fun entity => ?_
        split
        · exact Run.follows_get_bind fun _ => Run.follows_pure _
        · exact Run.follows_reject _ _
    · exact Run.follows_reject _ _
    · exact Run.follows_reject _ _

theorem follows_resolveType (t : Surface.TypeExpr) (scope : Scope) :
    (resolveType ask t scope).Follows C (resolveType ask' t scope) := by
  unfold resolveType
  split
  · exact follows_namedType h _ _ _ _
  · exact (h.answers _ rfl).bind fun _ => Run.follows_pure _
  · exact (h.answers _ rfl).bind fun _ => Run.follows_pure _
  · exact follows_arrayType h _ _ _ _
  · exact (follows_types h _ _).bind fun _ => (h.answers _ rfl).bind fun _ => Run.follows_pure _

/-! ## Entities -/

theorem follows_fnType (decl : Surface.FnDecl) (owner : Option StructId) (scope : Scope) :
    (fnType ask decl owner scope).Follows C (fnType ask' decl owner scope) := by
  unfold fnType
  refine Run.follows_get_bind fun c => ?_
  exact (Run.follows_mapM (fun _ => follows_paramType h.answers _ _) _).bind fun _ =>
    (follows_returnType h.answers _ _).bind fun _ => Run.follows_pure _

theorem follows_constantInitializer (value : Surface.Expr) (expected : Option Ty)
    (scope : Scope) :
    (constantInitializer ask value expected scope).Follows C
      (constantInitializer ask' value expected scope) := by
  unfold constantInitializer
  refine (h.answers _ rfl).bind fun checked => ?_
  split
  · exact Run.follows_pure _
  · exact Run.follows_reject _ _

theorem follows_variableType (decl : Surface.VarDecl) (scope : Scope) :
    (variableType ask decl scope).Follows C (variableType ask' decl scope) := by
  unfold variableType
  refine (follows_writtenType h.answers _ _).bind fun declared => ?_
  extract_lets +onlyGivenNames withValue withValue'
  have hvalue (value) : (withValue value).Follows C (withValue' value) := by
    dsimp -zeta only [withValue, withValue']
    extract_lets +onlyGivenNames withType withType'
    have htype (t) : (withType t).Follows C (withType' t) :=
      (follows_requireValueType _ _).bind fun _ =>
        (follows_complete h.answers _ _).bind fun _ => Run.follows_pure _
    split
    · exact (Run.follows_pure _).bind htype
    · exact (Run.follows_pure _).bind htype
    · exact (Run.follows_reject _ _).bind htype
  split
  · exact (Run.follows_pure _).bind hvalue
  · exact ((follows_constantInitializer h _ _ _).map _).bind hvalue

/-! ## Paths -/

theorem follows_structOfPath (path : List Ident) (scope : Scope) :
    (structOfPath ask path scope).Follows C (structOfPath ask' path scope) := by
  unfold structOfPath
  refine Run.follows_get_bind fun c => (Run.follows_ofExcept _).bind fun member => ?_
  split
  · exact Run.follows_pure _
  · refine (h.answers _ rfl).bind fun t => ?_
    split
    · exact Run.follows_pure _
    · exact Run.follows_reject _ _
  · exact Run.follows_reject _ _

theorem follows_memberOfStruct (path : List Ident) (member : Ident) (scope : Scope) :
    (memberOfStruct ask path member scope).Follows C (memberOfStruct ask' path member scope) := by
  unfold memberOfStruct
  refine (follows_structOfPath h _ _).bind fun id => (h.answers _ rfl).bind fun _ =>
    Run.follows_get_bind fun c => ?_
  dsimp only
  split
  · exact Run.follows_pure _
  · exact Run.follows_reject _ _

theorem follows_templateReferent (path : List Ident) (args : List Surface.TypeExpr)
    (scope : Scope) :
    (templateReferent ask path args scope).Follows C (templateReferent ask' path args scope) := by
  unfold templateReferent
  refine Run.follows_get_bind fun c => (Run.follows_ofExcept _).bind fun member => ?_
  split
  · refine (follows_types h _ _).bind fun types => (h.instantiate _ _ _).bind fun entity => ?_
    split
    · exact Run.follows_pure _
    · exact Run.follows_reject _ _
  · exact Run.follows_reject _ _
  · exact Run.follows_reject _ _

theorem follows_plainReferent (path : List Ident) (scope : Scope) :
    (plainReferent ask path scope).Follows C (plainReferent ask' path scope) := by
  unfold plainReferent
  refine Run.follows_get_bind fun c => ?_
  split
  · split
    · exact Run.follows_pure _
    · exact Run.follows_still fun _ => preserves_memberReferent _ _
  · split
    · exact Run.follows_still fun _ => preserves_memberReferent _ _
    · exact follows_memberOfStruct h _ _ _
  · exact follows_memberOfStruct h _ _ _
  · exact Run.follows_still fun _ => preserves_memberReferent _ _

theorem follows_resolvePath (path : List Ident) (args : List Surface.TypeExpr) (scope : Scope) :
    (resolvePath ask path args scope).Follows C (resolvePath ask' path args scope) := by
  unfold resolvePath
  split
  · exact follows_plainReferent h _ _
  · exact follows_templateReferent h _ _ _

/-! ## Locations -/

theorem follows_globalDenoted (id : GlobalId) (span : Span) :
    (globalDenoted ask id span).Follows C (globalDenoted ask' id span) := by
  unfold globalDenoted
  refine (h.answers _ rfl).bind fun t => Run.follows_get_bind fun c => ?_
  dsimp only
  split <;> exact Run.follows_pure _

theorem follows_pathDenoted (path : List Ident) (args : List Surface.TypeExpr) (write : Bool)
    (span : Span) (scope : Scope) :
    (pathDenoted ask path args write span scope).Follows C
      (pathDenoted ask' path args write span scope) := by
  unfold pathDenoted
  refine (follows_resolvePath h _ _ _).bind fun referent => ?_
  split
  · exact (Run.follows_still fun _ => preserves_slotPlace _ _ _).bind fun _ => Run.follows_pure _
  · exact follows_globalDenoted h _ _
  · exact (Run.follows_still fun _ => preserves_ownFieldPlace _ _ _ _).bind fun _ =>
      Run.follows_pure _

theorem follows_pointeePlace (pointer : Surface.Expr) (span : Span) (scope : Scope) :
    (pointeePlace ask pointer span scope).Follows C (pointeePlace ask' pointer span scope) := by
  unfold pointeePlace
  refine (h.answers _ rfl).bind fun value => ?_
  split
  · exact Run.follows_reject _ _
  · exact .unless ((follows_complete h.answers _ _).bind fun _ => Run.follows_pure _)

theorem follows_elementPlace (base index : Surface.Expr) (span : Span) (scope : Scope) :
    (elementPlace ask base index span scope).Follows C (elementPlace ask' base index span scope) :=
  (h.answers _ rfl).bind fun _ =>
    (Run.follows_still fun _ => preserves_elementsDenoted _ _ _).bind fun _ =>
      (h.answers _ rfl).bind fun _ => Run.follows_pure _

theorem follows_receiverOf (base : Surface.Expr) (scope : Scope) :
    (receiverOf ask base scope).Follows C (receiverOf ask' base scope) := by
  unfold receiverOf
  refine (h.answers _ rfl).bind fun denoted => ?_
  split
  · exact Run.follows_still fun _ => preserves_receiverOfValue _ _
  · split
    · exact Run.follows_pure _
    · exact (Run.follows_still fun _ => preserves_readPlace _).bind fun _ =>
        Run.follows_still fun _ => preserves_receiverOfValue _ _

theorem follows_structMember (id : StructId) (member : Ident) :
    (structMember ask id member).Follows C (structMember ask' id member) := by
  unfold structMember
  refine (h.answers _ rfl).bind fun _ => Run.follows_get_bind fun c => ?_
  dsimp only
  split
  · exact Run.follows_pure _
  · exact Run.follows_pure _
  · exact Run.follows_reject _ _

theorem follows_memberDenoted (base : Surface.Expr) (member : Ident) (span : Span)
    (scope : Scope) :
    (memberDenoted ask base member span scope).Follows C
      (memberDenoted ask' base member span scope) := by
  unfold memberDenoted
  refine (follows_receiverOf h _ _).bind fun receiver =>
    (follows_structMember h _ _).bind fun kind => ?_
  split
  · exact Run.follows_still fun _ => preserves_fieldDenoted _ _ _ _
  · exact (h.answers _ rfl).bind fun _ => Run.follows_pure _
  · exact Run.follows_reject _ _

/-! ## Initializers -/

theorem follows_objectType (t : Surface.TypeExpr) (scope : Scope) :
    (objectType ask t scope).Follows C (objectType ask' t scope) :=
  (h.answers _ rfl).bind fun _ => (follows_requireValueType _ _).bind fun _ =>
    (follows_complete h.answers _ _).bind fun _ => Run.follows_pure _

theorem follows_newValue (t : Surface.TypeExpr) (value : Surface.Expr) (span : Span)
    (scope : Scope) :
    (newValue ask t value span scope).Follows C (newValue ask' t value span scope) :=
  (follows_objectType h _ _).bind fun _ => .unless <|
    (h.answers _ rfl).bind fun _ => (h.consume _).bind fun _ => Run.follows_pure _

theorem follows_writtenFields (scope : Scope) (fields : List Field) (done : List FieldValue)
    (written : List (Ident × Surface.Expr)) :
    (writtenFields ask scope fields done written).Follows C
      (writtenFields ask' scope fields done written) := by
  induction written generalizing done with
  | nil => exact Run.follows_pure _
  | cons field rest ih =>
    unfold writtenFields
    split
    · exact Run.follows_reject _ _
    · extract_lets +onlyGivenNames fill fill'
      have hfill : (fill ⟨⟩).Follows C (fill' ⟨⟩) :=
        (h.answers _ rfl).bind fun _ => (h.consume _).bind fun _ => ih _
      split
      · exact (Run.follows_fail _).bind fun _ => hfill
      · exact hfill

theorem follows_structValue (t : Surface.TypeExpr) (fields : List (Ident × Surface.Expr))
    (heap : Bool) (span : Span) (scope : Scope) :
    (structValue ask t fields heap span scope).Follows C
      (structValue ask' t fields heap span scope) := by
  unfold structValue
  refine (h.answers _ rfl).bind fun target => ?_
  split
  · exact Run.follows_reject _ _
  · exact (h.answers _ rfl).bind fun _ => Run.follows_get_bind fun _ =>
      (follows_writtenFields h _ _ _ _).bind fun _ => (Run.follows_ofExcept _).bind fun _ =>
        Run.follows_pure _

theorem follows_elementValues (scope : Scope) (element : Ty) (values : List Surface.Expr) :
    (elementValues ask scope element values).Follows C
      (elementValues ask' scope element values) := by
  induction values with
  | nil => exact Run.follows_pure _
  | cons e rest ih =>
    exact (h.answers _ rfl).bind fun _ => (h.consume _).bind fun _ =>
      ih.bind fun _ => Run.follows_pure _

theorem follows_arrayValue (t : Surface.TypeExpr) (values : List Surface.Expr) (heap : Bool)
    (span : Span) (scope : Scope) :
    (arrayValue ask t values heap span scope).Follows C
      (arrayValue ask' t values heap span scope) :=
  (follows_objectType h _ _).bind fun _ => (follows_elementValues h _ _ _).bind fun _ =>
    Run.follows_pure _

theorem follows_filledValue (t : Surface.TypeExpr) (size value : Surface.Expr) (heap : Bool)
    (span : Span) (scope : Scope) :
    (filledValue ask t size value heap span scope).Follows C
      (filledValue ask' t size value heap span scope) :=
  (follows_objectType h _ _).bind fun _ => .unless <|
    (h.answers _ rfl).bind fun _ =>
      (Run.follows_still fun _ => preserves_fillSize _ _).bind fun _ =>
        (h.answers _ rfl).bind fun _ => .unless (Run.follows_pure _)

/-! ## Calls -/

theorem follows_argumentValues (scope : Scope) (params : List Ty) (args : List Surface.Expr) :
    (argumentValues ask scope params args).Follows C (argumentValues ask' scope params args) := by
  induction args generalizing params with
  | nil => exact Run.follows_pure _
  | cons arg rest ih =>
    exact (h.answers _ rfl).bind fun _ => (h.consume _).bind fun _ =>
      (ih _).bind fun _ => Run.follows_pure _

theorem follows_callOf (callee : Core.Expr) (receiver : List Core.Expr)
    (args : List Surface.Expr) (span : Span) (scope : Scope) :
    (callOf ask callee receiver args span scope).Follows C
      (callOf ask' callee receiver args span scope) := by
  unfold callOf
  split
  · exact (Run.follows_still fun _ => preserves_requireArguments _ _ _ _ _).bind fun _ =>
      (follows_argumentValues h _ _ _).bind fun _ => Run.follows_pure _
  · exact Run.follows_reject _ _

theorem follows_receiverArgument (method : GlobalId) (receiver : Receiver) (base : Surface.Expr)
    (member : Ident) :
    (receiverArgument ask method receiver base member).Follows C
      (receiverArgument ask' method receiver base member) := by
  unfold receiverArgument
  split
  · exact Run.follows_reject _ _
  · refine Run.follows_get_bind fun c => .unless ((h.answers _ rfl).bind fun t => ?_)
    extract_lets +onlyGivenNames first
    clear_value first
    split
    · exact (Run.follows_ofExcept _).bind fun _ => Run.follows_pure _
    · exact Run.follows_pure _

theorem follows_memberCall (base : Surface.Expr) (member : Ident) (args : List Surface.Expr)
    (span : Span) (scope : Scope) :
    (memberCall ask base member args span scope).Follows C
      (memberCall ask' base member args span scope) := by
  unfold memberCall
  refine (follows_receiverOf h _ _).bind fun receiver =>
    (follows_structMember h _ _).bind fun kind => ?_
  split
  · exact (Run.follows_still fun _ => preserves_fieldDenoted _ _ _ _).bind fun _ =>
      (Run.follows_still fun _ => preserves_readDenoted _).bind fun _ =>
        follows_callOf h _ _ _ _ _
  · exact (h.answers _ rfl).bind fun _ => follows_callOf h _ _ _ _ _
  · exact (follows_receiverArgument h _ _ _ _).bind fun _ => follows_callOf h _ _ _ _ _

theorem follows_callValue (callee : Surface.Expr) (args : List Surface.Expr) (span : Span)
    (scope : Scope) :
    (callValue ask callee args span scope).Follows C (callValue ask' callee args span scope) := by
  unfold callValue
  split
  · exact follows_memberCall h _ _ _ _ _
  · exact (h.answers _ rfl).bind fun _ => follows_callOf h _ _ _ _ _

theorem follows_macroArguments (scope : Scope) (params : List MacroParam)
    (args : List Surface.Expr) :
    (macroArguments ask scope params args).Follows C (macroArguments ask' scope params args) := by
  induction args generalizing params with
  | nil => exact Run.follows_pure _
  | cons arg rest ih =>
    exact (h.answers _ rfl).bind fun _ => .unless <| (h.consume _).bind fun _ =>
      (ih _).bind fun _ => Run.follows_pure _

theorem follows_namedMacro (path : List Ident) (scope : Scope) :
    (namedMacro ask path scope).Follows C (namedMacro ask' path scope) :=
  Run.follows_get_bind fun _ => (Run.follows_ofExcept _).bind fun _ =>
    (h.macroSigned _).bind fun _ => Run.follows_pure _

theorem follows_macroValue (path : List Ident) (args : List Surface.Expr) (span : Span)
    (scope : Scope) :
    (macroValue ask path args span scope).Follows C (macroValue ask' path args span scope) :=
  (follows_namedMacro h _ _).bind fun _ => Run.follows_get_bind fun _ => .unless <|
    (Run.follows_still fun _ => preserves_requireArguments _ _ _ _ _).bind fun _ =>
      (follows_macroArguments h _ _ _).bind fun _ => Run.follows_pure _

/-! ## Operators -/

theorem follows_unaryValue (op : Surface.UnaryOp) (operand : Surface.Expr)
    (expected : Option Ty) (span : Span) (scope : Scope) :
    (unaryValue ask op operand expected span scope).Follows C
      (unaryValue ask' op operand expected span scope) := by
  unfold unaryValue
  split
  · exact Run.follows_still fun _ => preserves_numberLiteral _ _ _
  · exact (h.answers _ rfl).bind fun _ =>
      (Run.follows_still fun _ => preserves_foldUnary _ _ _).bind fun _ => Run.follows_pure _

theorem follows_logicalValue (op : Surface.BinaryOp) (left right : Surface.Expr) (span : Span)
    (scope : Scope) :
    (logicalValue ask op left right span scope).Follows C
      (logicalValue ask' op left right span scope) :=
  (h.answers _ rfl).bind fun _ => (h.answers _ rfl).bind fun _ => Run.follows_pure _

theorem follows_operandValues (left right : Surface.Expr) (hint : Option Ty) (scope : Scope) :
    (operandValues ask left right hint scope).Follows C
      (operandValues ask' left right hint scope) := by
  unfold operandValues
  split
  · exact (h.answers _ rfl).bind fun _ => (h.answers _ rfl).bind fun _ =>
      (Run.follows_ofExcept _).bind fun _ => Run.follows_pure _
  · exact (h.answers _ rfl).bind fun _ => (h.answers _ rfl).bind fun _ => Run.follows_pure _

theorem follows_binaryValue (op : Surface.BinaryOp) (left right : Surface.Expr)
    (expected : Option Ty) (span : Span) (scope : Scope) :
    (binaryValue ask op left right expected span scope).Follows C
      (binaryValue ask' op left right expected span scope) :=
  (follows_operandValues h _ _ _ _).bind fun _ => .unless <|
    (Run.follows_still fun _ => preserves_requireFit _ _ _).bind fun _ => Run.follows_pure _

/-! ## Values -/

theorem follows_requirePlace (e : Surface.Expr) (write : Bool) (scope : Scope) :
    (requirePlace ask e write scope).Follows C (requirePlace ask' e write scope) := by
  unfold requirePlace
  refine (h.answers _ rfl).bind fun denoted => ?_
  split
  · exact Run.follows_pure _
  · exact Run.follows_reject _ _

theorem follows_referenceValue (target : Surface.Expr) (constant : Bool) (span : Span)
    (scope : Scope) :
    (referenceValue ask target constant span scope).Follows C
      (referenceValue ask' target constant span scope) :=
  (follows_requirePlace h _ _ _).bind fun _ => Run.follows_pure _

theorem follows_sharedValue (owner : Surface.Expr) (span : Span) (scope : Scope) :
    (sharedValue ask owner span scope).Follows C (sharedValue ask' owner span scope) := by
  unfold sharedValue
  refine (h.answers _ rfl).bind fun value => ?_
  split
  · exact Run.follows_pure _
  · exact Run.follows_reject _ _

theorem follows_rawValue (e : Surface.Expr) (expected : Option Ty) (scope : Scope) :
    (rawValue ask e expected scope).Follows C (rawValue ask' e expected scope) := by
  unfold rawValue
  extract_lets +onlyGivenNames span
  split
  · exact Run.follows_still fun _ => preserves_numberLiteral _ _ _
  · exact Run.follows_pure _
  · exact Run.follows_pure _
  · exact follows_callValue h _ _ _ _
  · exact follows_macroValue h _ _ _ _
  · split
    · exact follows_logicalValue h _ _ _ _ _
    · exact follows_binaryValue h _ _ _ _ _ _
  · exact follows_unaryValue h _ _ _ _ _
  · exact follows_referenceValue h _ _ _ _
  · exact follows_sharedValue h _ _ _
  · exact follows_newValue h _ _ _ _
  · exact follows_structValue h _ _ _ _ _
  · exact follows_arrayValue h _ _ _ _ _
  · exact follows_filledValue h _ _ _ _ _ _
  all_goals exact (h.answers _ rfl).bind fun _ => Run.follows_still fun _ => preserves_readDenoted _

theorem follows_checkValue (e : Surface.Expr) (expected : Option Ty) (scope : Scope) :
    (checkValue ask e expected scope).Follows C (checkValue ask' e expected scope) := by
  unfold checkValue
  refine (follows_rawValue h _ _ _).bind fun value => .unless ?_
  split
  · exact Run.follows_ofExcept _
  · exact Run.follows_pure _

theorem follows_checkDenoted (e : Surface.Expr) (write : Bool) (scope : Scope) :
    (checkDenoted ask e write scope).Follows C (checkDenoted ask' e write scope) := by
  unfold checkDenoted
  split
  · exact follows_pathDenoted h _ _ _ _ _
  · exact (follows_pointeePlace h _ _ _).bind fun _ => Run.follows_pure _
  · exact (follows_elementPlace h _ _ _ _).bind fun _ => Run.follows_pure _
  · exact follows_memberDenoted h _ _ _ _
  · exact (follows_rawValue h _ _ _).bind fun _ => Run.follows_pure _


/-- One step of nesting: answers that need `ask` follow the same answers over what `ask` follows. -/
theorem Following.step
    (halias : ∀ id usedAt, (resolveAlias ask id usedAt).Follows C (resolveAlias ask' id usedAt))
    (hstruct : ∀ id usedAt, (resolveStruct ask id usedAt).Follows C (resolveStruct ask' id usedAt))
    (hglobal : ∀ id usedAt, (resolveGlobal ask id usedAt).Follows C (resolveGlobal ask' id usedAt))
    (q : Query) (hq : q.isExpr) : (step ask q).Follows C (step ask' q) := by
  cases q with
  | value e expected scope => exact follows_checkValue h _ _ _
  | denoted e write scope => exact follows_checkDenoted h _ _ _
  | type t scope => exact follows_resolveType h _ _
  | typeAlias id usedAt => exact halias _ _
  | layout id usedAt => exact hstruct _ _
  | global id usedAt => exact hglobal _ _
  | stmt s scope => cases hq
  | block b scope => cases hq

end

end OwnLang.Check
