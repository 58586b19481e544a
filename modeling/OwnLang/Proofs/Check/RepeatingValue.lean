import Mathlib
import OwnLang.Proofs.Check.Folding
import OwnLang.Proofs.Check.Repeating

/-!
# Types and constants that are asked for again

A type that is written is found out again in the same way, and so is every value that is known when
compiling, since such a value is made of literals and of the values of globals. Of values that are
not known nothing is said here: where they are checked again, templates and structs that were not
needed before may be.
-/

namespace OwnLang.Check

open Surface (Ident)

/-- Answers that are the same later, outside of functions. -/
structure Repeating (ask : Asker) : Prop where
  following : Following (.resolution .outside) ask ask
  types : ∀ t scope, Repeats Always (ask (.type t scope))
  aliases : ∀ id usedAt, Repeats Always (ask (.typeAlias id usedAt))
  layouts : ∀ id usedAt, Repeats Always (ask (.layout id usedAt))
  globals : ∀ id usedAt, Repeats Always (ask (.global id usedAt))
  values : ∀ e expected scope, Repeats (·.constant ≠ none) (ask (.value e expected scope))
  places : ∀ e write scope, Repeats (¬ Anonymous ·) (ask (.denoted e write scope))
  laid : ∀ {id usedAt} {c d : Context}, (Course.resolution .outside).ready c →
    ask (.layout id usedAt) c = .ok () d → (d.struct id).state = .complete
  typed : ∀ {id usedAt t} {c d : Context}, (Course.resolution .outside).ready c →
    ask (.global id usedAt) c = .ok t d → d.typeOf? id = some t

variable {ask : Asker} {c d : Context} {α β : Type} {R : β → Prop}

section

variable (h : Repeating ask)

include h

/-! ## Types -/

theorem repeats_types (written : List Surface.TypeExpr) (scope : Scope) :
    Repeats Always (ask.types written scope) :=
  repeats_mapM (fun t => h.types t scope) written

theorem repeats_complete (t : Ty) (span : Span) : Repeats Always (ask.complete t span) := by
  unfold Asker.complete
  split
  · exact h.layouts _ _
  · exact repeats_pure _

theorem repeats_arraySize (size : Surface.Expr) (scope : Scope) :
    Repeats Always (arraySize ask size scope) := by
  unfold arraySize
  refine (h.values _ _ _).bind_of (fun value => ?_) fun value hnone => ?_
  · split
    · split
      · exact repeats_pure _
      · exact repeats_reject _ _
    · exact repeats_reject _ _
  · rw [not_not] at hnone
    rw [hnone]
    exact Run.returns_reject _ _

theorem repeats_arrayType (element : Surface.TypeExpr) (constant : Bool)
    (size : Option Surface.Expr) (scope : Scope) :
    Repeats Always (arrayType ask element constant size scope) := by
  unfold arrayType
  refine (h.types _ _).bind fun held => (repeats_requireValueType _ _).bind fun _ => ?_
  split
  · exact repeats_pure _
  · exact (repeats_arraySize h _ _).bind fun _ =>
      (repeats_complete h _ _).bind fun _ => repeats_pure _

omit h in
/-- The type of a struct that is declared. -/
theorem repeatsFrom_structType {f : Ty → Check β} {id : StructId} (hid : id.index < c.structs.size)
    (hf : RepeatsFrom c R (f (c.structType id))) :
    RepeatsFrom c R (get >>= fun c => f (c.structType id)) :=
  repeatsFrom_get_bind hf fun _ hd _ => by rw [hd.structType hid]

theorem repeats_namedType (path : List Ident) (args : List Surface.TypeExpr) (span : Span)
    (scope : Scope) : Repeats Always (namedType ask path args span scope) := by
  intro c hc
  unfold namedType
  split
  · exact repeats_pure _ c hc
  · refine repeatsFrom_get_bind ?_ fun d hd _ => by rw [hd.memberOfPath]
    refine (repeats_ofExcept _ c hc).bind (fun member d hfound hd => ?_) fun _ hnot =>
      absurd trivial hnot
    obtain ⟨hfound, rfl⟩ := Run.ofExcept_eq_ok.mp hfound
    split
    · split
      · exact repeatsFrom_structType (hc.1.memberOfPath hfound) (repeats_pure _ d hc)
      · exact repeats_reject _ _ d hc
    · split
      · exact h.aliases _ _ d hc
      · exact repeats_reject _ _ d hc
    · split
      · exact repeats_reject _ _ d hc
      · refine Repeats.bind (repeats_types h _ _) (fun types e he => ?_) d hc
        refine (repeats_instantiate h.following.answers _ _ _ e he).bind (fun entity f hmade hf => ?_)
          fun _ hnot => absurd trivial hnot
        have hready := (Course.resolution .outside).ready_done he hf trivial
        split
        · exact repeatsFrom_structType
            (hready.1.instance (instance?_instantiate h.following.answers he hmade).2)
            (repeats_pure _ f hready)
        · exact repeats_reject _ _ f hready
    · exact repeats_reject _ _ d hc
    · exact repeats_reject _ _ d hc

theorem repeats_resolveType (t : Surface.TypeExpr) (scope : Scope) :
    Repeats Always (resolveType ask t scope) := by
  unfold resolveType
  split
  · exact repeats_namedType h _ _ _ _
  · exact (h.types _ _).bind fun _ => repeats_pure _
  · exact (h.types _ _).bind fun _ => repeats_pure _
  · exact repeats_arrayType h _ _ _ _
  · exact (repeats_types h _ _).bind fun _ => (h.types _ _).bind fun _ => repeats_pure _

/-! ## Paths -/

omit h in
theorem repeats_memberReferent (path : List Ident) (member : Option Member) :
    Repeats Always (memberReferent path member) := by
  unfold memberReferent
  split
  · exact repeats_pure _
  · exact repeats_reject _ _
  · exact repeats_reject _ _

theorem repeats_structOfPath (path : List Ident) (scope : Scope) :
    Repeats Always (structOfPath ask path scope) := by
  intro c hc
  unfold structOfPath
  refine repeatsFrom_get_bind ?_ fun d hd _ => by rw [hd.memberOfPath]
  refine Repeats.bind (repeats_ofExcept _) (fun member => ?_) c hc
  split
  · exact repeats_pure _
  · refine (h.aliases _ _).bind fun t => ?_
    split
    · exact repeats_pure _
    · exact repeats_reject _ _
  · exact repeats_reject _ _

theorem repeats_memberOfStruct (path : List Ident) (member : Ident) (scope : Scope) :
    Repeats Always (memberOfStruct ask path member scope) := by
  unfold memberOfStruct
  refine (repeats_structOfPath h _ _).bind fun id c hc => ?_
  refine (h.layouts _ _ c hc).bind (fun _ d hlaid hd => ?_) fun _ hnot => absurd trivial hnot
  have hready := (Course.resolution .outside).ready_done hc hd trivial
  refine repeatsFrom_get_bind ?_ fun e he _ => by rw [he.struct (h.laid hc hlaid)]
  dsimp only
  split
  · exact repeats_pure _ d hready
  · exact repeats_reject _ _ d hready

theorem repeats_templateReferent (path : List Ident) (args : List Surface.TypeExpr)
    (scope : Scope) : Repeats Always (templateReferent ask path args scope) := by
  intro c hc
  unfold templateReferent
  refine repeatsFrom_get_bind ?_ fun d hd _ => by rw [hd.memberOfPath]
  refine Repeats.bind (repeats_ofExcept _) (fun member => ?_) c hc
  split
  · refine (repeats_types h _ _).bind fun types =>
      (repeats_instantiate h.following.answers _ _ _).bind fun entity => ?_
    split
    · exact repeats_pure _
    · exact repeats_reject _ _
  · exact repeats_reject _ _
  · exact repeats_reject _ _

theorem repeats_plainReferent (path : List Ident) (scope : Scope) :
    Repeats Always (plainReferent ask path scope) := by
  intro c hc
  unfold plainReferent
  have hinner (d : Context) (hd : d.frame = none) (name : String) : innerReferent? d name = none := by
    unfold innerReferent?
    rw [hd]
  refine repeatsFrom_get_bind ?_ fun d hd hframe => ?_
  · split
    · rw [hinner c hc.2]
      exact repeats_memberReferent _ _ c hc
    · split
      · exact repeats_memberReferent _ _ c hc
      · exact repeats_memberOfStruct h _ _ _ c hc
    · exact repeats_memberOfStruct h _ _ _ c hc
    · exact repeats_memberReferent _ _ c hc
  · simp only [hinner c hc.2, hinner d hframe, hd.visibleMember, hd.findPackage, hd.member]

theorem repeats_resolvePath (path : List Ident) (args : List Surface.TypeExpr) (scope : Scope) :
    Repeats Always (resolvePath ask path args scope) := by
  unfold resolvePath
  split
  · exact repeats_plainReferent h _ _
  · exact repeats_templateReferent h _ _ _

/-! ## Locations -/

theorem repeats_globalDenoted (id : GlobalId) (span : Span) :
    Repeats Always (globalDenoted ask id span) := by
  intro c hc
  unfold globalDenoted
  refine (h.globals _ _ c hc).bind (fun t d htyped hd => ?_) fun _ hnot => absurd trivial hnot
  have hready := (Course.resolution .outside).ready_done hc hd trivial
  have hstate := (Context.typeOf?_eq_some.mp (h.typed hc htyped)).1
  refine repeatsFrom_get_bind ?_ fun e he _ => by rw [he.global hstate]
  dsimp only
  split
  · exact repeats_pure _ d hready
  · exact repeats_pure _ d hready

omit h in
/-- Where no function is open, there are no locals. -/
theorem repeats_frame : Repeats Always frame := fun c hc => by
  refine ⟨Run.follows_still (fun _ => preserves_frame) c hc, fun f d hrun _ e _ he => ?_⟩
  cases hrun
  show Outcome.ok (e.frame.getD default) e = .ok (c.frame.getD default) e
  rw [he, hc.2]

omit h in
theorem repeats_slotPlace (id : LocalId) (write : Bool) (span : Span) :
    Repeats Always (slotPlace id write span) := by
  unfold slotPlace
  refine repeats_frame.bind fun f => ?_
  dsimp only
  split
  · exact repeats_fail _
  · exact repeats_pure _

omit h in
theorem ownFieldPlace_anonymous (this : LocalId) (id : StructId) (index : Nat) (span : Span) :
    (ownFieldPlace this id index span).Returns fun place => Anonymous (.place place) :=
  Run.returns_bind fun _ => Run.returns_bind fun _ =>
    Run.returns_pure ⟨fun _ h => (nomatch h), fun _ h => (nomatch h)⟩

omit h in
theorem Repeats.anonymous_place {x : Check Core.Place} (hx : x.Follows (.resolution .outside) x)
    (hanonymous : x.Returns fun place => Anonymous (.place place)) :
    Repeats (¬ Anonymous ·) (do return .place (← x) : Check Denoted) := by
  refine repeats_of_returns (hx.bind fun _ => Run.follows_pure _) ?_
  intro c denoted d hrun
  obtain ⟨place, e, hplace, hreturn⟩ := Run.bind_eq_ok.mp hrun
  cases hreturn
  exact not_not.mpr (hanonymous hplace)

theorem repeats_pathDenoted (path : List Ident) (args : List Surface.TypeExpr) (write : Bool)
    (span : Span) (scope : Scope) :
    Repeats (¬ Anonymous ·) (pathDenoted ask path args write span scope) := by
  unfold pathDenoted
  refine (repeats_resolvePath h _ _ _).bind fun referent => ?_
  split
  · exact (repeats_slotPlace _ _ _).bind fun _ => repeats_pure _
  · exact fun c hc => ⟨(repeats_globalDenoted h _ _ c hc).follows, fun a d hrun _ =>
      (repeats_globalDenoted h _ _ c hc).lasts a d hrun trivial⟩
  · exact Repeats.anonymous_place (Run.follows_still fun _ => preserves_ownFieldPlace _ _ _ _)
      (ownFieldPlace_anonymous _ _ _ _)

omit h in
/-- Where the value of a variable is known, it stays. -/
theorem knownAt_again (hc : (Course.resolution .outside).ready c) {place : Core.Place}
    (hcd : c.Continues Resolvable.Progresses d) (hd : d.frame = none) (hknown : knownAt c place ≠ none) :
    knownAt d place = knownAt c place := by
  unfold knownAt at hknown ⊢
  split
  · rw [hd, hc.2]
  · rename_i id hkind
    rw [hkind] at hknown
    dsimp only at hknown
    have hvalue : (c.global id).value ≠ none := fun hnone => by simp [hnone] at hknown
    have hid : id.index < c.globals.size := by
      by_contra hid
      rw [global_of_size_le (Nat.not_lt.mp hid)] at hvalue
      exact hvalue rfl
    have hstate : (c.global id).state = .complete := by
      by_contra hstate
      exact hvalue ((hc.1.globals _ (getD_mem hid)).blank hstate).2
    rw [hcd.global hstate]
  · rfl

omit h in
theorem repeats_readDenoted (denoted : Denoted) : Repeats (·.constant ≠ none) (readDenoted denoted) := by
  cases denoted with
  | value value => exact repeats_pure _
  | place place =>
    intro c hc
    refine ⟨Run.follows_still (fun _ => preserves_readPlace place) c hc,
      fun value d hrun hknown e hde he => ?_⟩
    obtain ⟨rfl, rfl⟩ := readPlace_eq_ok hrun
    have hsame := knownAt_again hc hde he hknown
    simp only [readDenoted, readPlace] at hrun ⊢
    split at hrun
    · cases hrun
    · rename_i hpointee
      rw [if_neg hpointee, Run.bind_apply, Run.get_apply]
      dsimp only
      rw [hsame]
      rfl

omit h in
theorem readDenoted_anonymous {denoted : Denoted} (hanonymous : Anonymous denoted) :
    (readDenoted denoted).Returns (·.constant = none) := by
  cases denoted with
  | value value => exact Run.returns_pure hanonymous
  | place place =>
    intro c value d hrun
    obtain ⟨rfl, -⟩ := readPlace_eq_ok hrun
    show knownAt c place = none
    unfold knownAt
    split
    · exact absurd ‹_› (hanonymous.1 _)
    · exact absurd ‹_› (hanonymous.2 _)
    · rfl

/-! ## Values -/

omit h in
theorem Repeats.computed {x : Check Core.Expr} (hx : x.Follows (.resolution .outside) x)
    (hcomputed : x.Returns (·.constant = none)) : Repeats (·.constant ≠ none) x :=
  repeats_of_returns hx fun _ _ _ hrun => not_not.mpr (hcomputed hrun)

omit h in
theorem repeats_numberLiteral (n : Int) (expected : Option Ty) (span : Span) :
    Repeats Always (numberLiteral n expected span) := repeats_ofExcept _

omit h in
theorem Repeats.known {x : Check α} (hx : Repeats Always x) {Q : α → Prop} : Repeats Q x :=
  fun c hc => ⟨(hx c hc).follows, fun a d hrun _ => (hx c hc).lasts a d hrun trivial⟩

omit h in
theorem repeats_foldUnary (op : Surface.UnaryOp) (operand : Core.Expr) (span : Span) :
    Repeats Always (foldUnary op operand span) := by
  unfold foldUnary negated
  split
  · split
    · split
      · exact repeats_pure _
      · exact repeats_reject _ _
    · exact repeats_pure _
  · exact repeats_pure _
  · exact repeats_reject _ _

omit h in
theorem foldUnary_none {op : Surface.UnaryOp} {operand : Core.Expr} (hnone : operand.constant = none)
    (span : Span) : (foldUnary op operand span).Returns (· = none) := by
  intro c constant d hrun
  obtain ⟨-, width, -, hrun⟩ | ⟨-, -, rfl⟩ := foldUnary_eq_ok hrun
  · unfold negated at hrun
    rw [hnone] at hrun
    cases hrun
    rfl
  · rw [hnone]
    rfl

theorem repeats_unaryValue (op : Surface.UnaryOp) (operand : Surface.Expr) (expected : Option Ty)
    (span : Span) (scope : Scope) :
    Repeats (·.constant ≠ none) (unaryValue ask op operand expected span scope) := by
  unfold unaryValue
  split
  · exact (repeats_numberLiteral _ _ _).known
  · refine (h.values _ _ _).bind_of (fun value => (repeats_foldUnary _ _ _).bind fun _ => repeats_pure _)
      fun value hnone => ?_
    intro c e d hrun
    obtain ⟨constant, c₁, hfold, hreturn⟩ := Run.bind_eq_ok.mp hrun
    cases hreturn
    exact not_not.mpr (foldUnary_none (not_not.mp hnone) _ hfold)

omit h in
theorem foldLogical_none {op : Surface.BinaryOp} {left right : Option Const}
    (h : Const.foldLogical op left right ≠ none) : left ≠ none ∧ right ≠ none := by
  constructor <;> rintro rfl <;> simp [Const.foldLogical] at h

theorem repeats_logicalValue (op : Surface.BinaryOp) (left right : Surface.Expr) (span : Span)
    (scope : Scope) : Repeats (·.constant ≠ none) (logicalValue ask op left right span scope) := by
  unfold logicalValue
  refine (h.values _ _ _).bind_of (fun a => (h.values _ _ _).bind_of (fun b => repeats_pure _)
    fun b hnone => ?_) fun a hnone => Run.returns_bind fun b => ?_
  · exact Run.returns_pure fun hfold => hnone (foldLogical_none hfold).2
  · exact Run.returns_pure fun hfold => hnone (foldLogical_none hfold).1

omit h in
theorem coerce_constant {value converted : Core.Expr} {t : Ty} (h : value.coerce t = .ok converted)
    (hconstant : converted.constant ≠ none) : value.constant ≠ none := by
  intro hnone
  unfold Core.Expr.coerce at h
  split at h
  · cases h
    exact hconstant hnone
  · cases hcast : Core.Cast.between? value.type.shape t.shape with
    | none =>
      simp only [hcast] at h
      cases h
    | some cast =>
      cases cast <;> simp only [hcast, hnone] at h <;> cases h <;> exact hconstant rfl

/-- Both operands are known if the result is. -/
theorem repeats_operandValues (left right : Surface.Expr) (hint : Option Ty) (scope : Scope) :
    Repeats (fun (a, b) => a.constant ≠ none ∧ b.constant ≠ none)
      (operandValues ask left right hint scope) := by
  unfold operandValues
  split
  · refine (h.values _ _ _).bind_of (fun b => (h.values _ _ _).bind_of (fun a =>
      (repeats_ofExcept _).bind fun _ => repeats_pure _) fun a hnone => ?_) fun b hnone => ?_
    · exact Run.returns_bind fun _ => Run.returns_pure fun hknown => hnone hknown.1
    · refine Run.returns_bind fun a => ?_
      intro c operands d hrun hknown
      obtain ⟨b', c₁, hcoerce, hreturn⟩ := Run.bind_eq_ok.mp hrun
      cases hreturn
      exact hnone (coerce_constant (Run.ofExcept_eq_ok.mp hcoerce).1 hknown.2)
  · refine (h.values _ _ _).bind_of (fun a => (h.values _ _ _).bind_of (fun b => repeats_pure _)
      fun b hnone => ?_) fun a hnone => Run.returns_bind fun b => ?_
    · exact Run.returns_pure fun hknown => hnone hknown.2
    · exact Run.returns_pure fun hknown => hnone hknown.1

omit h in
theorem foldBinary_none {op : Surface.BinaryOp} {left right : Option Const}
    (h : Const.foldBinary op left right ≠ none) : left ≠ none ∧ right ≠ none := by
  constructor <;> rintro rfl <;> simp [Const.foldBinary] at h

omit h in
theorem repeats_requireFit (constant : Option Const) (t : Ty) (span : Span) :
    Repeats Always (requireFit constant t span) := by
  unfold requireFit
  split
  · split
    · exact repeats_pure _
    · exact repeats_reject _ _
  · exact repeats_pure _

theorem repeats_binaryValue (op : Surface.BinaryOp) (left right : Surface.Expr)
    (expected : Option Ty) (span : Span) (scope : Scope) :
    Repeats (·.constant ≠ none) (binaryValue ask op left right expected span scope) := by
  unfold binaryValue
  refine (repeats_operandValues h _ _ _ _).bind_of (fun (a, b) => .unless <|
    (repeats_requireFit _ _ _).bind fun _ => repeats_pure _) fun (a, b) hnone => .unless <|
      Run.returns_bind fun _ => Run.returns_pure fun hfold => hnone (foldBinary_none hfold)

theorem repeats_rawValue (e : Surface.Expr) (expected : Option Ty) (scope : Scope) :
    Repeats (·.constant ≠ none) (rawValue ask e expected scope) := by
  have hfollows := follows_rawValue h.following e expected scope
  have hplace : Repeats (·.constant ≠ none)
      (do readDenoted (← ask (.denoted e false scope)) : Check Core.Expr) :=
    (h.places _ _ _).bind_of (fun denoted => repeats_readDenoted denoted) fun denoted hanonymous =>
      fun _ _ _ hrun => not_not.mpr (readDenoted_anonymous (not_not.mp hanonymous) hrun)
  unfold rawValue at hfollows ⊢
  cases hkind : e.kind <;> simp only [hkind] at hfollows ⊢
  case number => exact (repeats_numberLiteral _ _ _).known
  case bool => exact repeats_pure _
  case str => exact repeats_pure _
  case call => exact .computed hfollows (callValue_computed _ _ _ _)
  case macroCall => exact .computed hfollows (macroValue_computed _ _ _ _)
  case binary op left right =>
    split
    · exact repeats_logicalValue h _ _ _ _ _
    · exact repeats_binaryValue h _ _ _ _ _ _
  case unary => exact repeats_unaryValue h _ _ _ _ _
  case ref => exact .computed hfollows (referenceValue_computed _ _ _ _)
  case share => exact .computed hfollows (sharedValue_computed _ _ _)
  case new => exact .computed hfollows (newValue_computed _ _ _ _)
  case structInit => exact .computed hfollows (structValue_computed _ _ _ _ _)
  case arrayInit => exact .computed hfollows (arrayValue_computed _ _ _ _ _)
  case arrayFill => exact .computed hfollows (filledValue_computed _ _ _ _ _ _)
  all_goals exact hplace

theorem repeats_checkValue (e : Surface.Expr) (expected : Option Ty) (scope : Scope) :
    Repeats (·.constant ≠ none) (checkValue ask e expected scope) := by
  unfold checkValue
  refine (repeats_rawValue h _ _ _).bind_of (fun value => .unless ?_) fun value hnone => .unless ?_
  · split
    · exact repeats_ofExcept _
    · exact repeats_pure _
  · split
    · intro c converted d hrun hknown
      exact hnone (coerce_constant (Run.ofExcept_eq_ok.mp hrun).1 hknown)
    · exact Run.returns_pure hnone

theorem repeats_checkDenoted (e : Surface.Expr) (write : Bool) (scope : Scope) :
    Repeats (¬ Anonymous ·) (checkDenoted ask e write scope) := by
  have hvalue :
      Repeats (¬ Anonymous ·) (do return .value (← rawValue ask e none scope) : Check Denoted) :=
    (repeats_rawValue h _ _ _).bind_of (fun _ => repeats_pure _) fun _ hnone =>
      Run.returns_pure fun hanonymous => hnone hanonymous
  unfold checkDenoted
  cases hkind : e.kind <;> simp only
  case path => exact repeats_pathDenoted h _ _ _ _ _
  case deref =>
    exact .anonymous_place (follows_pointeePlace h.following _ _ _) (pointeePlace_anonymous _ _ _)
  case index =>
    exact .anonymous_place (follows_elementPlace h.following _ _ _ _) (elementPlace_anonymous _ _ _ _)
  case member =>
    exact repeats_of_returns (follows_memberDenoted h.following _ _ _ _) fun _ _ _ hrun =>
      not_not.mpr (memberDenoted_anonymous _ _ _ _ hrun)
  all_goals exact hvalue

/-- One step of nesting. -/
theorem Repeating.step (hnone : Unnamed ask) : Repeating (Check.step ask) where
  following :=
    have ha := follows_step h.following hnone
    following_resolution ha (lenient_outside ha)
  types t scope := repeats_resolveType h t scope
  aliases id usedAt := repeats_resolveAlias h.following.answers hnone id usedAt
  layouts id usedAt := repeats_resolveStruct h.following.answers id usedAt
  globals id usedAt := repeats_resolveGlobal h.following id usedAt
  values e expected scope := repeats_checkValue h e expected scope
  places e write scope := repeats_checkDenoted h e write scope
  laid := resolveStruct_laid h.following.answers
  typed := resolveGlobal_typed h.following

end

theorem unnamed_answerTo (n : Nat) : Unnamed (answerTo n) :=
  answerCut_none n ▸ unnamed_answerCut _ n

/-- What is answered is answered again, by induction on how deep queries nest. -/
theorem repeating_answerTo (n : Nat) : Repeating (answerTo n) := by
  induction n with
  | zero =>
    have ha (q : Query) : (answerTo 0 q).Follows (.resolution .outside) (answerTo 0 q) :=
      Run.follows_stop _
    exact
      { following := following_resolution (fun q _ => ha q) (lenient_outside fun q _ => ha q)
        types := fun _ _ => repeats_stop _
        aliases := fun _ _ => repeats_stop _
        layouts := fun _ _ => repeats_stop _
        globals := fun _ _ => repeats_stop _
        values := fun _ _ _ => repeats_stop _
        places := fun _ _ _ => repeats_stop _
        laid := fun _ hrun => by cases hrun
        typed := fun _ hrun => by cases hrun }
  | succ n ih => exact ih.step (unnamed_answerTo n)

/-! ## Signatures of macros -/

theorem repeats_macroSignature {ask : Asker} (h : Repeating ask) (decl : Surface.MacroDecl)
    (scope : Scope) : Repeats Always (macroSignature ask decl scope) := by
  have hparam (p : Surface.MacroParam) : Repeats Always (macroParam ask scope p) :=
    ((h.types _ _).bind fun _ => (repeats_requireValueType _ _).bind fun _ => repeats_pure _ :
      Repeats Always (paramType ask p.type scope)).bind fun _ => repeats_pure _
  have hreturns : Repeats Always (returnType ask decl.returns scope) := by
    unfold returnType resolveAnnotation
    split
    · exact (repeats_pure _).bind fun _ => repeats_pure _
    · exact ((h.types _ _).map _).bind fun _ => repeats_pure _
  exact (repeats_mapM hparam _).bind fun _ => hreturns.bind fun _ => repeats_pure _

end OwnLang.Check

/-!
## Macros that are signed twice

A macro that is resolved again in the midst of its own resolution is signed twice. It is signed in
the same way both times, since its signature is found out once (`Repeating`): from the context on in
which a macro became complete, its signature lasts (`Context.Signs`). So two contexts that macros
have been signed in from the same one on agree on all that is signed in the first
(`Context.Signs.macros`).
-/

namespace OwnLang

open Check (Lasts macroSignature answer)

/-- From a context on, the signature of a macro is found out again as it is. -/
def MacroDef.Repeatable (m : MacroDef) (c : Context) : Prop :=
  Lasts (macroSignature answer m.decl m.scope) c (m.params, m.returns)

namespace Context

/-- Macros have gone forward, what was complete is the same, and what became complete is signed as it
is found out. -/
structure Signs (c d : Context) : Prop where
  forward : Retained MacroDef.Forwards c.macros d.macros
  kept : ∀ (i : Nat) (m : MacroDef), c.macros[i]? = some m → m.state = .complete → d.macros[i]? = some m
  lasting : ∀ (i : Nat) (m : MacroDef), d.macros[i]? = some m → m.state = .complete →
    c.macros[i]? = some m ∨ m.Repeatable d

variable {c d e : Context}

theorem signs_of_eq (h : d.macros = c.macros) : c.Signs d :=
  ⟨h ▸ .refl .refl _, fun _ _ hm _ => h ▸ hm, fun _ _ hm _ => .inl (h ▸ hm)⟩

theorem Signs.trans (h : c.Signs d) (h' : d.Signs e) (hde : d.Continues Resolvable.Progresses e) :
    c.Signs e where
  forward := h.forward.trans .trans h'.forward
  kept i m hm hstate := h'.kept i m (h.kept i m hm hstate) hstate
  lasting i m hm hstate := by
    rcases h'.lasting i m hm hstate with hm | hlasts
    · exact (h.lasting i m hm hstate).imp_right fun hlasts => hlasts.mono hde
    · exact .inr hlasts

theorem signs_push {m : MacroDef} (hm : m.Fresh) (h : d.macros = c.macros.push m) : c.Signs d where
  forward := h ▸ (Retained.refl .refl c.macros).push m
  kept i n hn _ := by
    obtain ⟨hi, -⟩ := Array.getElem?_eq_some_iff.mp hn
    rw [h, Array.getElem?_push_lt hi, ← hn, Array.getElem?_eq_getElem hi]
  lasting i n hn hstate := by
    rw [h, Array.getElem?_push] at hn
    split at hn
    · cases hn
      rw [hm.state] at hstate
      cases hstate
    · exact .inl hn

theorem macros_size_trans (h : d.macros.size = c.macros.size) (h' : e.macros.size = d.macros.size) :
    e.macros.size = c.macros.size := h'.trans h

/-- Where macros were signed in two contexts from the same one on, the second one has all that is
signed in the first. -/
theorem Signs.macros {s : Context} (hc : s.Signs c) (hd : s.Signs d)
    (hcd : c.Continues Resolvable.Progresses d)
    (hforward : Retained MacroDef.Forwards c.macros d.macros) (hsigned : ∀ m ∈ c.macros, m.Signed) :
    Retained MacroDef.resolvable.Progresses c.macros d.macros := by
  intro i m hm
  obtain ⟨n, hn, hmn⟩ := hforward i m hm
  have hfinal (hstate : m.state = .complete) : n = m := by
    have hstate' := hmn.complete hstate
    rcases hc.lasting i m hm hstate with hsame | hlasts
    · exact Option.some.inj (hn.symm.trans (hd.kept i m hsame hstate))
    rcases hd.lasting i n hn hstate' with hsame | hlasts'
    · exact Option.some.inj ((hc.kept i n hsame hstate').symm.trans hm)
    -- Both signatures are found out where no function is open, so they are the same.
    have hframe := (d.shares_frame none).continues (R := Resolvable.Progresses) .refl
    have hm' := hlasts _ (hcd.trans .trans hframe) rfl
    have hn' := hlasts' _ hframe rfl
    have hdeclared := hmn.declared
    cases m
    cases n
    simp only [MacroDef.resolvable, MacroDef.mk.injEq] at hdeclared hstate hstate'
    obtain ⟨rfl, rfl, rfl, rfl, rfl, -⟩ := hdeclared
    obtain ⟨hparams, hreturns⟩ : _ ∧ _ := by simpa using hn'.symm.trans hm'
    rw [hparams, hreturns, hstate, hstate']
  refine ⟨n, hn, hmn.declared, ?_, hfinal⟩
  have hunmarked := (hsigned m (Array.mem_of_getElem? hm)).unmarked
  show m.state.rank ≤ n.state.rank
  cases hstate : m.state with
  | declared => exact Nat.zero_le _
  | resolving => exact absurd hstate hunmarked
  | complete => rw [hmn.complete hstate]

end Context

/-- Macros are signed as their signatures are found out, where no function is open. -/
def MacroLaw.signing : MacroLaw where
  ready c := c.frame = none
  moves c d := (c.frame = none → d.frame = none) ∧ c.Signs d
  done c d := d.macros.size = c.macros.size
  after _ _ := True
  still _ h hframe := ⟨⟨hframe, Context.signs_of_eq h⟩, by rw [h]⟩
  declared _ hm h hframe := ⟨fun hc => hframe.trans hc, Context.signs_push hm h⟩
  detached {c d} h := ⟨id, h.2.forward, h.2.kept, fun i m hm hstate =>
    (h.2.lasting i m hm hstate).imp_right fun hlasts =>
      hlasts.mono ((d.shares_frame c.frame).continues .refl)⟩
  detached_done h := h
  detached_after _ _ := trivial
  moves_trans hde h h' := ⟨fun hc => h'.1 (h.1 hc), h.2.trans h'.2 hde⟩
  done_trans := @Context.macros_size_trans
  ready_done hc h _ := h.1 hc
  after_of_moves _ := trivial
  after_trans _ _ := trivial

namespace Check

variable {cut : Cut} {c d : Context}

/-- A signature that is found out on the way is found out again in the end. -/
theorem lasts_macroSignature {n : Nat} (hn : n ≤ nestingBound) {decl : Surface.MacroDecl}
    {scope : Scope} {signature : List MacroParam × Ty} (hc : c.Orderly) (hframe : c.frame = none)
    (h : macroSignature (answerCut cut n) decl scope c = .ok signature d) :
    Lasts (macroSignature answer decl scope) d signature := by
  have hready : (Course.resolution .outside).ready c := ⟨hc, hframe⟩
  have hwithin : Cut.Within (fun _ _ => none) cut := fun _ _ _ => rfl
  have hdeeper := follows_macroSignature (lenient_deeper lenient_outside hwithin hn) decl scope c hready
  rw [answerCut_none] at hdeeper
  exact (repeats_macroSignature (repeating_answerTo nestingBound) decl scope c hready).lasts _ _
    (hdeeper.of_ok h) trivial

/-- The macro that is signed was not complete when that began. -/
theorem signs_signed {id : MacroId} {params : List MacroParam} {returns : Ty} (h : c.Signs d)
    (hsize : d.macros.size = c.macros.size) (hstate : (c.macroDef id).state ≠ .complete)
    (hlasts : Lasts (macroSignature answer (c.macroDef id).decl (c.macroDef id).scope) d
      (params, returns)) : c.Signs (signed d id params returns) where
  forward := h.forward.modify fun _ _ _ _ hm => ⟨hm.declared, fun _ => rfl⟩
  kept i m hm hcomplete := by
    have hne : id.index ≠ i := by
      rintro rfl
      refine hstate ?_
      simpa [Context.macroDef, hm] using hcomplete
    simpa [signed, Context.modifyMacro, Array.getElem?_modify, hne] using h.kept i m hm hcomplete
  lasting i m hm hcomplete := by
    have hwritten := (continues_signed d id params returns).progresses
    dsimp only [signed, Context.modifyMacro] at hm
    rw [Array.getElem?_modify] at hm
    split at hm
    · rename_i hid
      subst hid
      obtain ⟨n, hn, rfl⟩ := Option.map_eq_some_iff.mp hm
      have hforwards := h.forward.getD (hsize ▸ (Array.getElem?_eq_some_iff.mp hn).1)
      rw [hn] at hforwards
      obtain ⟨hdecl, hscope⟩ : n.decl = (c.macroDef id).decl ∧ n.scope = (c.macroDef id).scope :=
        hforwards.written
      refine .inr (Lasts.mono ?_ hwritten)
      dsimp only
      rwa [hdecl, hscope]
    · exact (h.lasting i m hm hcomplete).imp_right fun hlasts => hlasts.mono hwritten

/-- Macros are signed as their signatures are found out in the end. -/
theorem signing_resolveMacro {n : Nat} (hn : n ≤ nestingBound)
    (ha : ∀ q : Query, q.isExpr →
      (answerCut cut n q).Follows (.resolution .signing) (answerCut cut n q)) (id : MacroId) :
    (resolveMacro (answerCut cut n) id).Follows (.resolution .signing)
      (resolveMacro (answerCut cut n) id) := by
  refine follows_resolveMacro ha (fun {c d id params returns} hc hstate hsig hmoves hdone => ?_) id
  have hlasts := lasts_macroSignature hn hc.1 hc.2 hsig
  exact ⟨⟨hmoves.macros.1, signs_signed hmoves.macros.2 hdone hstate hlasts⟩,
    Array.size_modify.trans hdone, trivial⟩

theorem signing_answerCut (cut : Cut) (q : Query) (hq : q.isExpr) :
    (answerCut cut nestingBound q).Follows (.resolution .signing) (answerCut cut nestingBound q) :=
  follows_answerCut (fun _ _ h => h) (fun _ hn ha => signing_resolveMacro (Nat.le_of_lt hn) ha) le_rfl
    q hq

end Check

end OwnLang
