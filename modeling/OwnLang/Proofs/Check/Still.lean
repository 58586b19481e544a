import Mathlib
import OwnLang.Check.Basic
import OwnLang.Proofs.Run

/-!
# Parts of checking that put no questions

What these parts look at is there already, and they leave the context as it is: they keep every
property of it.
-/

namespace OwnLang

/-- Queries that no statement is checked for, so that blocks and loops stay as they are. -/
def Query.isExpr : Query → Bool
  | .stmt .. | .block .. => false
  | _ => true

namespace Check

open Surface (Ident)

variable {P : Context → Prop}

theorem preserves_requireValueType (t : Ty) (span : Span) :
    (requireValueType t span).Preserves P := by
  unfold requireValueType
  split
  · exact Run.preserves_reject _ _
  · exact Run.preserves_pure _

theorem preserves_frame : frame.Preserves P := Run.preserves_get.bind fun _ => Run.preserves_pure _

theorem preserves_numberLiteral (value : Int) (expected : Option Ty) (span : Span) :
    (numberLiteral value expected span).Preserves P := Run.preserves_ofExcept _

theorem preserves_negated (operand : Core.Expr) (width : Width) (span : Span) :
    (negated operand width span).Preserves P := by
  unfold negated
  split
  · split
    · exact Run.preserves_pure _
    · exact Run.preserves_reject _ _
  · exact Run.preserves_pure _

theorem preserves_foldUnary (op : Surface.UnaryOp) (operand : Core.Expr) (span : Span) :
    (foldUnary op operand span).Preserves P := by
  unfold foldUnary
  split
  · exact preserves_negated _ _ _
  · exact Run.preserves_pure _
  · exact Run.preserves_reject _ _

theorem preserves_requireFit (constant : Option Const) (t : Ty) (span : Span) :
    (requireFit constant t span).Preserves P := by
  unfold requireFit
  split
  · split
    · exact Run.preserves_pure _
    · exact Run.preserves_reject _ _
  · exact Run.preserves_pure _

theorem preserves_requireArguments (params : Nat) (variadic : Bool) (bound received : Nat)
    (span : Span) : (requireArguments params variadic bound received span).Preserves P := by
  unfold requireArguments
  split
  · exact Run.preserves_reject _ _
  · exact Run.preserves_pure _

theorem preserves_fillSize (size : Core.Expr) (span : Span) : (fillSize size span).Preserves P := by
  unfold fillSize
  split
  · exact Run.preserves_pure _
  · split
    · exact Run.preserves_reject _ _
    · exact Run.preserves_pure _

theorem preserves_memberReferent (path : List Ident) (member : Option Member) :
    (memberReferent path member).Preserves P := by
  unfold memberReferent
  split
  · exact Run.preserves_pure _
  · exact Run.preserves_reject _ _
  · exact Run.preserves_reject _ _

theorem preserves_readPlace (place : Core.Place) : (readPlace place).Preserves P := by
  unfold readPlace
  exact .unless (Run.preserves_get.bind fun _ => Run.preserves_pure _)

theorem preserves_readDenoted (denoted : Denoted) : (readDenoted denoted).Preserves P := by
  unfold readDenoted
  split
  · exact Run.preserves_pure _
  · exact preserves_readPlace _

theorem preserves_slotPlace (id : LocalId) (write : Bool) (span : Span) :
    (slotPlace id write span).Preserves P := by
  unfold slotPlace
  refine preserves_frame.bind fun _ => ?_
  dsimp only
  split
  · exact Run.preserves_fail _
  · exact Run.preserves_pure _

theorem preserves_fieldAt (id : StructId) (index : Nat) : (fieldAt id index).Preserves P :=
  Run.preserves_get.bind fun _ => Run.preserves_pure _

theorem preserves_ownFieldPlace (this : LocalId) (id : StructId) (index : Nat) (span : Span) :
    (ownFieldPlace this id index span).Preserves P :=
  preserves_frame.bind fun _ => (preserves_fieldAt _ _).bind fun _ => Run.preserves_pure _

theorem preserves_fieldDenoted (id : StructId) (index : Nat) (receiver : Receiver) (span : Span) :
    (fieldDenoted id index receiver span).Preserves P := by
  unfold fieldDenoted
  refine (preserves_fieldAt _ _).bind fun _ => ?_
  split <;> exact Run.preserves_pure _

theorem preserves_elementsOf (value : Core.Expr) (span : Span) :
    (elementsOf value span).Preserves P := by
  unfold elementsOf
  split
  · exact Run.preserves_pure _
  · exact Run.preserves_reject _ _
  · dsimp only
    split
    · exact Run.preserves_pure _
    · exact Run.preserves_reject _ _
  · dsimp only
    split
    · exact Run.preserves_pure _
    · exact Run.preserves_reject _ _
  · exact Run.preserves_reject _ _

theorem preserves_elementsDenoted (denoted : Denoted) (baseSpan span : Span) :
    (elementsDenoted denoted baseSpan span).Preserves P := by
  unfold elementsDenoted
  split
  · split
    · exact Run.preserves_pure _
    · exact (preserves_readPlace _).bind fun _ => preserves_elementsOf _ _
  · exact preserves_elementsOf _ _

theorem preserves_receiverOfValue (value : Core.Expr) (span : Span) :
    (receiverOfValue value span).Preserves P := by
  unfold receiverOfValue
  split
  · exact Run.preserves_pure _
  · split
    · exact Run.preserves_pure _
    · exact Run.preserves_reject _ _
  · exact Run.preserves_reject _ _

theorem preserves_requireUnique : requireUnique.Preserves P := by
  unfold requireUnique
  refine Run.preserves_get.bind fun c => ?_
  rw [← Array.forIn_toList]
  refine (Run.preserves_forIn (fun package _ => ?_) _ _).bind fun _ => Run.preserves_pure _
  split
  · exact (Run.preserves_fail _).bind fun _ => Run.preserves_pure _
  · exact Run.preserves_pure _

end Check

end OwnLang
