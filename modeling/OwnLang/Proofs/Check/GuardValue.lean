import Mathlib
import OwnLang.Proofs.Check.Guard

/-!
# Guarded expressions

What is checked of expressions and locations keeps to what may be written, with one lemma for each part
of checking. Whether a location is constant is found out anew at each step that leads to it, and every
conversion could lose it again; so the lemmas about locations, elements and receivers say what their
mark is.

That no method changes a constant receiver follows from the types: such a method asks for a pointer
that may change what it points at, and no other pointer has its type.
-/

namespace OwnLang.Check

open OwnLang.Core (AccessEnv)
open Run (yields_pure yields_fail yields_reject yields_ofExcept yields_get_bind)
open Surface (Ident)

variable {Γ : AccessEnv} {ask : Asker} {c d : Context} {scope : Scope}

/-! ## Literals and conversions -/

theorem guarded_literal {n : Int} {t : Ty} {width : Width} {span : Span} {e : Core.Expr}
    (h : Core.Expr.literal n t width span = .ok e) : e.Guarded Γ := by
  unfold Core.Expr.literal at h
  split at h
  · cases h
    exact .mk .int
  · cases h

theorem guarded_coerce {e e' : Core.Expr} {t : Ty} (he : e.Guarded Γ) (h : e.coerce t = .ok e') :
    e'.Guarded Γ := by
  unfold Core.Expr.coerce at h
  split at h
  · cases h
    exact he
  · split at h
    case h_1 => exact guarded_literal h
    case h_2 source target hcast _ =>
      cases h
      refine .mk (.cast he ?_)
      rw [(Core.Cast.between?_int hcast).1]
      exact Shape.keepsConstant_int
    case h_3 hcast =>
      cases h
      refine .mk (.cast he ?_)
      rcases Core.Cast.between?_views hcast with hconverts | hviews
      · exact Shape.keepsConstant_convertsPointer hconverts
      · exact Shape.keepsConstant_viewsArray hviews
    case h_4 => cases h

theorem yields_numberLiteral {n : Int} {expected : Option Ty} {span : Span} :
    Yields c (numberLiteral n expected span) fun d e => e.Guarded d.access :=
  yields_ofExcept fun _ => guarded_literal

/-! ## Variables and fields -/

theorem yields_readPlace {place : Core.Place} (hplace : place.Guarded c.access) :
    Yields c (readPlace place) fun d e => e.Guarded d.access := by
  unfold readPlace
  exact .unless (yields_get_bind (yields_pure fun _ => .mk (.load hplace)))

theorem yields_readDenoted {denoted : Denoted} (hdenoted : denoted.Guarded c.access) :
    Yields c (readDenoted denoted) fun d e => e.Guarded d.access := by
  cases denoted with
  | value v => exact yields_pure fun _ => hdenoted
  | place place => exact yields_readPlace hdenoted

/-- Whether a local is constant is known. -/
theorem guarded_slot {id : LocalId} (h : id.index < c.here.locals.size) (t : Ty) (span : Span) :
    (Core.Place.mk (.slot id) t (slotOf c id).constant span).Guarded c.access := by
  refine .mk .slot ?_
  show (c.here.locals[id.index]?).map (·.constant) = some (c.here.localAt id).constant
  unfold Frame.localAt
  rw [Array.getElem?_eq_getElem h]
  rfl

theorem yields_slotPlace {id : LocalId} {write : Bool} {span : Span}
    (hid : id.index < c.here.locals.size) :
    Yields c (slotPlace id write span) fun d place => place.Guarded d.access := by
  refine yields_frame_bind ?_
  dsimp only
  split
  · exact yields_fail _
  · exact yields_pure fun _ => guarded_slot hid _ _

/-- The field of a complete struct. -/
theorem yields_fieldAt {id : StructId} {index : Nat} (hstate : (c.struct id).state = .complete)
    (hindex : index < (c.struct id).fields.length) :
    Yields c (fieldAt id index) fun d field =>
      d = c ∧ ∃ bs, d.access.fields id = some bs ∧ bs[index]? = some field.constant := by
  refine yields_get_bind (yields_pure fun _ => ⟨rfl, ?_⟩)
  rw [List.getElem?_eq_getElem hindex]
  exact c.access_field hstate (List.getElem?_eq_getElem hindex)

/-- A field is constant if the pointer to its struct may not change it or the field is constant. -/
theorem guarded_field {base : Core.Expr} {id : StructId} {index : Nat} {field : Field} {t : Ty}
    {constant : Bool} {span : Span} (hbase : base.Guarded Γ)
    (hconstant : base.type.shape.isConstant = constant)
    (hfield : ∃ bs, Γ.fields id = some bs ∧ bs[index]? = some field.constant) :
    (Core.Place.mk (.field base id index) t (constant || field.constant) span).Guarded Γ := by
  obtain ⟨bs, hbs, hindex⟩ := hfield
  refine .mk (.field hbase) ?_
  simp [AccessEnv.pathConstant, hbs, hindex, hconstant]

/-- Inside methods `this` is a constant local, and what it points at may be changed or not as its type
says. -/
theorem yields_ownFieldPlace {this : LocalId} {id : StructId} {index : Nat} {span : Span}
    (href : RefScoped c (.field this id index)) :
    Yields c (ownFieldPlace this id index span) fun d place => place.Guarded d.access := by
  intro hc
  obtain ⟨hreceiver, hindex⟩ := href
  obtain ⟨hthis, -⟩ := hc.ready.visible.receiver this id hreceiver
  have hbase : (Core.Place.mk (.slot this) (slotOf c this).type true span).Guarded c.access := by
    rw [← hc.receiver this id hreceiver]
    exact guarded_slot hthis _ _
  have hplace : Yields c (ownFieldPlace this id index span) fun d place => place.Guarded d.access := by
    refine yields_frame_bind ((yields_fieldAt (hc.ready.complete hindex) hindex).bind
      fun field d hcd hfield => yields_pure fun _ => ?_)
    exact guarded_field (.mk (.load (hbase.mono hcd.grows))) rfl hfield.2
  exact hplace hc

section

variable (hg : Guardian ask)

include hg

theorem yields_globalDenoted {id : GlobalId} {span : Span} :
    Yields c (globalDenoted ask id span) fun d denoted => denoted.Guarded d.access := by
  refine (yields_global hg).bind fun t d _ ht => yields_get_bind ?_
  obtain ⟨hconstant, hmutator⟩ := d.access_global ht
  dsimp only
  split
  · exact yields_pure fun _ => .mk (.function hmutator)
  · exact yields_pure fun _ => .mk .global hconstant

theorem yields_resolvePath {path : List Ident} {args : List Surface.TypeExpr} :
    Yields c (resolvePath ask path args scope) RefScoped := fun hc _ _ h =>
  ⟨(hg.evaluated (fun _ hP => preserves_resolvePath hP _ _ _) hc h).1, scoped_resolvePath hc.ready h⟩

theorem yields_pathDenoted {path : List Ident} {args : List Surface.TypeExpr} {write : Bool}
    {span : Span} : Yields c (pathDenoted ask path args write span scope) fun d denoted =>
      denoted.Guarded d.access := by
  refine (yields_resolvePath hg).bind fun referent d _ href => ?_
  cases referent with
  | slot id => exact (yields_slotPlace href).bind fun _ _ _ hplace => yields_pure fun _ => hplace
  | global id => exact yields_globalDenoted hg
  | field this id index =>
    exact (yields_ownFieldPlace href).bind fun _ _ _ hplace => yields_pure fun _ => hplace

/-! ## Pointers and elements -/

theorem yields_pointeePlace {pointer : Surface.Expr} {span : Span} :
    Yields c (pointeePlace ask pointer span scope) fun d place => place.Guarded d.access := by
  refine (yields_value hg).bind fun value d _ hvalue => ?_
  split
  · exact yields_reject _ _
  · rename_i target constant hpointee
    refine .unless ((yields_complete hg).bind fun _ e hde _ => yields_pure fun _ => ?_)
    exact .mk (.deref (hvalue.mono hde.grows)) (by
      rw [AccessEnv.pathConstant, Shape.isConstant_of_pointee hpointee])

omit hg in
/-- Elements may not be changed if the pointer to the array may not change it or the array is
constant. -/
def Elements.Guarded (Γ : AccessEnv) (elements : Elements) : Prop :=
  elements.data.Guarded Γ ∧ elements.constant =
    (elements.data.type.shape.isConstant || elements.data.type.shape.isPointeeConstant)

omit hg in
theorem yields_elementsOf {value : Core.Expr} {span : Span} (hvalue : value.Guarded c.access) :
    Yields c (elementsOf value span) fun d elements => elements.Guarded d.access := by
  have hbehind {target element : Ty} {constant arrayConstant : Bool} {size : Option Nat}
      (hpointee : value.type.shape.pointee? = some (target, constant))
      (hshape : target.shape = .array element arrayConstant size) :
      Elements.Guarded c.access ⟨value, element, constant || arrayConstant⟩ := by
    refine ⟨hvalue, ?_⟩
    dsimp only
    rw [Shape.isConstant_of_pointee hpointee, Shape.isPointeeConstant_of_pointee hpointee, hshape]
    rfl
  unfold elementsOf
  split
  · rename_i hshape
    refine yields_pure fun _ => ⟨hvalue, ?_⟩
    dsimp only
    rw [hshape]
    exact (Bool.or_false _).symm
  · exact yields_reject _ _
  · rename_i hshape
    dsimp only
    split
    · rename_i harray
      exact yields_pure fun _ => hbehind (by rw [hshape]; rfl) harray
    · exact yields_reject _ _
  · rename_i hshape
    dsimp only
    split
    · rename_i harray
      exact yields_pure fun _ => hbehind (by rw [hshape]; rfl) harray
    · exact yields_reject _ _
  · exact yields_reject _ _

omit hg in
theorem yields_elementsDenoted {denoted : Denoted} {baseSpan span : Span}
    (hdenoted : denoted.Guarded c.access) :
    Yields c (elementsDenoted denoted baseSpan span) fun d elements => elements.Guarded d.access := by
  cases denoted with
  | value value => exact yields_elementsOf hdenoted
  | place place =>
    unfold elementsDenoted
    dsimp only
    split
    · rename_i element arrayConstant size hshape
      refine yields_pure fun _ => ⟨.mk (.address hdenoted fun hconstant => ?_), ?_⟩
      · show (place.constant || arrayConstant) = true
        rw [hconstant, Bool.true_or]
      · have hpointee : ((place.pointerTo (place.constant || arrayConstant) span).type.shape).pointee? =
            some (place.type, place.constant || arrayConstant) := rfl
        dsimp only
        rw [Shape.isConstant_of_pointee hpointee, Shape.isPointeeConstant_of_pointee hpointee, hshape]
        simp [Shape.isConstant]
    · exact (yields_readPlace hdenoted).bind fun value d _ hvalue => yields_elementsOf hvalue

theorem yields_elementPlace {base index : Surface.Expr} {span : Span} :
    Yields c (elementPlace ask base index span scope) fun d place => place.Guarded d.access := by
  refine (yields_denoted hg).bind fun denoted d _ hdenoted =>
    (yields_elementsDenoted hdenoted).bind fun elements e _ helements =>
      (yields_value hg).bind fun position f hef hposition => yields_pure fun _ => ?_
  exact .mk (.element (helements.1.mono hef.grows) hposition) (by
    rw [AccessEnv.pathConstant, ← helements.2])

/-! ## Members -/

omit hg in
/-- A receiver is marked as its pointer is. -/
def Receiver.Guarded (Γ : AccessEnv) : Receiver → Prop
  | .pointer value constant => value.Guarded Γ ∧ value.type.shape.isConstant = constant
  | .temporary value => value.Guarded Γ

omit hg in
theorem Receiver.Guarded.mono {Δ : AccessEnv} {receiver : Receiver} (h : receiver.Guarded Γ)
    (hΔ : Γ.Extends Δ) : receiver.Guarded Δ := by
  cases receiver with
  | pointer value constant => exact ⟨h.1.mono hΔ, h.2⟩
  | temporary value => exact Core.Expr.Guarded.mono hΔ h

omit hg in
theorem yields_receiverOfValue {value : Core.Expr} {span : Span} (hvalue : value.Guarded c.access) :
    Yields c (receiverOfValue value span) fun d found => found.2.Guarded d.access := by
  unfold receiverOfValue
  split
  · exact yields_pure fun _ => hvalue
  · rename_i hpointee
    split
    · exact yields_pure fun _ => ⟨hvalue, Shape.isConstant_of_pointee hpointee⟩
    · exact yields_reject _ _
  · exact yields_reject _ _

theorem yields_receiverOf {base : Surface.Expr} :
    Yields c (receiverOf ask base scope) fun d found => found.2.Guarded d.access := by
  refine (yields_denoted hg).bind fun denoted d _ hdenoted => ?_
  cases denoted with
  | value value => exact yields_receiverOfValue hdenoted
  | place place =>
    dsimp only
    split
    · exact yields_pure fun _ => ⟨.mk (.address hdenoted fun hconstant => hconstant), rfl⟩
    · exact (yields_readPlace hdenoted).bind fun value e _ hvalue => yields_receiverOfValue hvalue

/-- The struct of a member is complete, and a field is one that it has. -/
theorem yields_structMember {id : StructId} {member : Ident} :
    Yields c (structMember ask id member) fun d kind => (d.struct id).state = .complete ∧
      ∀ index, kind = .field index → index < (d.struct id).fields.length := fun hc _ _ h =>
  ⟨(hg.evaluated (fun _ hP => preserves_structMember hP _ _) hc h).1,
    (structMember_complete hg.elaborates hc.ready h).2⟩

omit hg in
theorem yields_fieldDenoted {id : StructId} {index : Nat} {receiver : Receiver} {span : Span}
    (hstate : (c.struct id).state = .complete) (hindex : index < (c.struct id).fields.length)
    (hreceiver : receiver.Guarded c.access) :
    Yields c (fieldDenoted id index receiver span) fun d denoted => denoted.Guarded d.access := by
  refine (yields_fieldAt hstate hindex).bind fun field d hcd hfield => ?_
  cases receiver with
  | pointer value constant =>
    exact yields_pure fun _ => guarded_field (hreceiver.1.mono hcd.grows) hreceiver.2 hfield.2
  | temporary value =>
    exact yields_pure fun _ => .mk (.extract (Core.Expr.Guarded.mono hcd.grows hreceiver))

theorem yields_memberDenoted {base : Surface.Expr} {member : Ident} {span : Span} :
    Yields c (memberDenoted ask base member span scope) fun d denoted =>
      denoted.Guarded d.access := by
  refine (yields_receiverOf hg).bind fun found d _ hreceiver =>
    (yields_structMember hg).bind fun kind e hde hkind => ?_
  cases kind with
  | field index =>
    exact yields_fieldDenoted hkind.1 (hkind.2 index rfl) (hreceiver.mono hde.grows)
  | static function =>
    exact (yields_global hg).bind fun t f _ ht => yields_pure fun _ =>
      .mk (.function (f.access_global ht).2)
  | method function => exact yields_reject _ _

/-! ## Initializers -/

theorem yields_consume {value : Core.Expr} : Yields c (consume value) fun _ _ => True :=
  hg.evaluated fun _ hP => hP.consume _

theorem yields_objectType {t : Surface.TypeExpr} :
    Yields c (objectType ask t scope) fun _ _ => True :=
  hg.evaluated fun _ hP => preserves_objectType hP _ _

theorem yields_newValue {t : Surface.TypeExpr} {value : Surface.Expr} {span : Span} :
    Yields c (newValue ask t value span scope) fun d e => e.Guarded d.access :=
  (yields_objectType hg).bind fun _ _ _ _ => .unless ((yields_value hg).bind fun _ _ _ hcontent =>
    (yields_consume hg).bind fun _ _ htaken _ => yields_pure fun _ =>
      .mk (.new (hcontent.mono htaken.grows)))

theorem yields_writtenFields {fields : List Field} {done : List FieldValue}
    {exprs : List (Ident × Surface.Expr)} (hdone : ∀ w ∈ done, w.value.Guarded c.access) :
    Yields c (writtenFields ask scope fields done exprs) fun d written =>
      ∀ w ∈ written, w.value.Guarded d.access := by
  induction exprs generalizing c done with
  | nil => exact yields_pure fun _ => hdone
  | cons expr rest ih =>
    unfold writtenFields
    split
    · exact yields_reject _ _
    · extract_lets +onlyGivenNames fill
      have hfill : Yields c (fill ⟨⟩) fun d written => ∀ w ∈ written, w.value.Guarded d.access := by
        refine (yields_value hg).bind fun value d hcd hvalue =>
          (yields_consume hg).bind fun _ e hde _ => ih fun w hw => ?_
        rcases List.mem_append.mp hw with hw | hw
        · exact (hdone w hw).mono (hcd.trans hde).grows
        · rw [List.mem_singleton.mp hw]
          exact hvalue.mono hde.grows
      split
      · exact fun _ _ _ hrun => by cases hrun
      · exact hfill

omit hg in
/-- The value of each field is written or the default. -/
theorem guarded_fieldValues {fields : List Field} {written : List FieldValue} {span : Span}
    {index : Nat} {values : List Core.Expr} (hwritten : ∀ w ∈ written, w.value.Guarded Γ)
    (hdefaults : ∀ f ∈ fields, f.Guarded Γ) (h : fieldValues written span index fields = .ok values) :
    ∀ value ∈ values, value.Guarded Γ := by
  induction fields generalizing index values with
  | nil =>
    cases h
    simp
  | cons field rest ih =>
    unfold fieldValues at h
    split at h
    · rename_i value hvalue
      cases hothers : fieldValues written span (index + 1) rest with
      | error diagnostic => simp [hothers, Except.map] at h
      | ok others =>
        rw [hothers] at h
        cases h
        refine List.forall_mem_cons.mpr
          ⟨?_, ih (fun f hf => hdefaults f (List.mem_cons_of_mem _ hf)) hothers⟩
        rcases Option.or_eq_some_iff.mp hvalue with hgiven | ⟨-, hdefault⟩
        · obtain ⟨w, hw, rfl⟩ := Option.map_eq_some_iff.mp hgiven
          exact hwritten w (List.mem_of_find?_eq_some hw)
        · exact hdefaults field List.mem_cons_self value hdefault
    · cases h

theorem yields_structValue {t : Surface.TypeExpr} {fields : List (Ident × Surface.Expr)}
    {heap : Bool} {span : Span} :
    Yields c (structValue ask t fields heap span scope) fun d e => e.Guarded d.access := by
  refine (yields_type hg).bind fun target d _ _ => ?_
  split
  · exact yields_reject _ _
  · rename_i id _
    refine (yields_layout hg).bind fun _ e _ _ => yields_get_bind ?_
    refine Run.Yields.bind (Q := fun f written => (∀ w ∈ written, w.value.Guarded f.access) ∧
      ∀ field ∈ (e.struct id).fields, field.Guarded f.access) (fun he => ?_)
      fun written f _ hparts => (yields_ofExcept fun values =>
        guarded_fieldValues hparts.1 hparts.2).bind fun values g _ hvalues =>
          yields_pure fun _ => .mk (.structInit hvalues)
    refine (yields_writtenFields hg fun w hw => by cases hw).mono
      (fun written f hef hwritten => ⟨hwritten, fun field hfield => ?_⟩) he
    exact (he.guarded.defaults id field hfield).mono
      ((e.accessWith_empty_extends _).trans hef.grows)

theorem yields_elementValues {element : Ty} {exprs : List Surface.Expr} :
    Yields c (elementValues ask scope element exprs) fun d values =>
      ∀ value ∈ values, value.Guarded d.access := by
  induction exprs generalizing c with
  | nil => exact yields_pure fun _ _ hv => by cases hv
  | cons e rest ih =>
    exact (yields_value hg).bind fun value d _ hvalue => (yields_consume hg).bind fun _ e hde _ =>
      ih.bind fun others f hef hothers => yields_pure fun _ =>
        List.forall_mem_cons.mpr ⟨hvalue.mono (hde.trans hef).grows, hothers⟩

theorem yields_arrayValue {t : Surface.TypeExpr} {exprs : List Surface.Expr} {heap : Bool}
    {span : Span} : Yields c (arrayValue ask t exprs heap span scope) fun d e => e.Guarded d.access :=
  (yields_objectType hg).bind fun _ _ _ _ => (yields_elementValues hg).bind fun _ _ _ hvalues =>
    yields_pure fun _ => .mk (.arrayInit hvalues)

theorem yields_filledValue {t : Surface.TypeExpr} {size value : Surface.Expr} {heap : Bool}
    {span : Span} :
    Yields c (filledValue ask t size value heap span scope) fun d e => e.Guarded d.access := by
  refine (yields_objectType hg).bind fun element d _ _ => .unless ?_
  refine (yields_value hg).bind fun count e _ hcount =>
    Run.Yields.bind (Q := fun _ _ => True) (.of_preserves (preserves_fillSize _ _) fun _ _ => trivial)
      fun known f hef _ => (yields_value hg).bind fun content g hfg hcontent =>
        .unless (yields_pure fun _ => ?_)
  exact .mk (.arrayFill (hcount.mono (hef.trans hfg).grows) hcontent)

/-! ## Calls -/

theorem yields_argumentValues {params : List Ty} {args : List Surface.Expr} :
    Yields c (argumentValues ask scope params args) fun d values =>
      ∀ value ∈ values, value.Guarded d.access := by
  induction args generalizing c params with
  | nil => exact yields_pure fun _ _ hv => by cases hv
  | cons arg rest ih =>
    exact (yields_value hg).bind fun value d _ hvalue => (yields_consume hg).bind fun _ e hde _ =>
      ih.bind fun others f hef hothers => yields_pure fun _ =>
        List.forall_mem_cons.mpr ⟨hvalue.mono (hde.trans hef).grows, hothers⟩

omit hg in
/-- A call of which it is not said yet that its receiver may be changed. -/
def CallGuarded (Γ : AccessEnv) (e : Core.Expr) : Prop :=
  ∃ callee args, e.kind = .call callee args ∧ callee.Guarded Γ ∧ ∀ arg ∈ args, arg.Guarded Γ

theorem yields_callOf {callee : Core.Expr} {receiver : List Core.Expr} {args : List Surface.Expr}
    {span : Span} (hcallee : callee.Guarded c.access)
    (hreceiver : ∀ r ∈ receiver, r.Guarded c.access) :
    Yields c (callOf ask callee receiver args span scope) fun d e => CallGuarded d.access e := by
  unfold callOf
  split
  · refine Run.Yields.bind (Q := fun _ _ => True)
      (.of_preserves (preserves_requireArguments _ _ _ _ _) fun _ _ => trivial) fun _ d hcd _ =>
        (yields_argumentValues hg).bind fun values e hde hvalues => yields_pure fun _ => ?_
    have hce := (hcd.trans hde).grows
    exact ⟨callee, receiver ++ values, rfl, hcallee.mono hce, List.forall_mem_append.mpr
      ⟨fun r hr => (hreceiver r hr).mono hce, hvalues⟩⟩
  · exact yields_reject _ _

theorem yields_receiverArgument {method : GlobalId} {receiver : Receiver} {base : Surface.Expr}
    {member : Ident} (hreceiver : receiver.Guarded c.access) :
    Yields c (receiverArgument ask method receiver base member) fun d found =>
      found.1.Guarded d.access ∧ d.typeOf? method = some found.2 := by
  cases receiver with
  | temporary value => exact yields_reject _ _
  | pointer value constant =>
    refine yields_get_bind (.unless ((yields_global hg).bind fun t d hcd ht => ?_))
    have hvalue := hreceiver.1.mono hcd.grows
    extract_lets +onlyGivenNames first
    clear_value first
    split
    · exact (yields_ofExcept (Q := fun d this => this.Guarded d.access ∧ d.typeOf? method = some t)
        fun this hcoerced => ⟨guarded_coerce hvalue hcoerced, ht⟩).bind fun this e _ hthis =>
          yields_pure fun _ => hthis
    · exact yields_pure fun _ => ⟨hvalue, ht⟩

theorem yields_memberCall {base : Surface.Expr} {member : Ident} {args : List Surface.Expr}
    {span : Span} :
    Yields c (memberCall ask base member args span scope) fun d e => CallGuarded d.access e := by
  refine (yields_receiverOf hg).bind fun found d _ hreceiver =>
    (yields_structMember hg).bind fun kind e hde hkind => ?_
  have hreceiver := hreceiver.mono hde.grows
  cases kind with
  | field index =>
    exact (yields_fieldDenoted hkind.1 (hkind.2 index rfl) hreceiver).bind fun denoted f _ hdenoted =>
      (yields_readDenoted hdenoted).bind fun callee g _ hcallee =>
        yields_callOf hg hcallee fun r hr => by cases hr
  | static function =>
    exact (yields_global hg).bind fun t f _ ht =>
      yields_callOf hg (.mk (.function (f.access_global ht).2)) fun r hr => by cases hr
  | method function =>
    refine (yields_receiverArgument hg hreceiver).bind fun first f _ hfirst => ?_
    exact yields_callOf hg (.mk (.function (f.access_global hfirst.2).2))
      fun r hr => List.mem_singleton.mp hr ▸ hfirst.1

omit hg in
/-- A method that may change its receiver is called with a pointer that may. -/
theorem receiverGuarded_of_typed (hd : d.Guarded) {callee : Core.Expr} {args : List Core.Expr} {t : Ty}
    {k : Option Const} {span : Span} (hargs : ∀ arg ∈ args, arg.Guarded d.access)
    (h : (Core.Expr.mk (.call callee args) t k span).Typed d.typeEnv) :
    Core.ReceiverGuarded d.access callee args := by
  intro id this hkind hmutator hthis
  cases h with
  | call hcallee hshape _ hfixed _ =>
    obtain ⟨kind, type, _, _⟩ := callee
    cases hkind
    cases hcallee with
    | function hid =>
      replace hid : d.typeOf? id = some type := hid
      obtain ⟨hstate, htype⟩ := Context.typeOf?_eq_some.mp hid
      have hmutates := (d.access_global hid).2.symm.trans hmutator
      obtain ⟨target, params, variadic, returns, hfunc⟩ :=
        hd.receivers id type (Option.some.inj hmutates) hstate htype
      rw [show type.shape = _ from hshape] at hfunc
      injection hfunc with hparams
      obtain ⟨rest, rfl⟩ := List.head?_eq_some_iff.mp hthis
      rw [hparams, List.length_cons, List.take_succ_cons, List.forall₂_cons] at hfixed
      have hsame := hfixed.1
      rw [Ty.same_shape] at hsame
      exact (hargs this List.mem_cons_self).mayChange (Shape.isConstant_same hsame)

theorem yields_callValue {callee : Surface.Expr} {args : List Surface.Expr} {span : Span} :
    Yields c (callValue ask callee args span scope) fun d e => e.Guarded d.access := by
  have hparts : Yields c (callValue ask callee args span scope) fun d e => CallGuarded d.access e := by
    unfold callValue
    split
    · exact yields_memberCall hg
    · exact (yields_value hg).bind fun value d _ hvalue =>
        yields_callOf hg hvalue fun r hr => by cases hr
  intro hc e d h
  obtain ⟨hcd, callee', args', hkind, hcallee, hargs⟩ := hparts hc h
  have htyped := typed_callValue hg.elaborates hc.ready h
  obtain ⟨kind, t, k, span'⟩ := e
  cases hkind
  exact ⟨hcd, .mk (.call hcallee hargs (receiverGuarded_of_typed hcd.watched.guarded hargs htyped))⟩

theorem yields_macroArguments {params : List MacroParam} {args : List Surface.Expr} :
    Yields c (macroArguments ask scope params args) fun d values =>
      ∀ value ∈ values, value.Guarded d.access := by
  induction args generalizing c params with
  | nil => exact yields_pure fun _ _ hv => by cases hv
  | cons arg rest ih =>
    exact (yields_value hg).bind fun value d _ hvalue => .unless ((yields_consume hg).bind
      fun _ e hde _ => ih.bind fun others f hef hothers => yields_pure fun _ =>
        List.forall_mem_cons.mpr ⟨hvalue.mono (hde.trans hef).grows, hothers⟩)

theorem yields_macroValue {path : List Ident} {args : List Surface.Expr} {span : Span} :
    Yields c (macroValue ask path args span scope) fun d e => e.Guarded d.access :=
  (hg.evaluated fun _ hP => preserves_namedMacro hP _ _).bind fun _ _ _ _ => yields_get_bind
    (.unless (Run.Yields.bind (Q := fun _ _ => True)
      (.of_preserves (preserves_requireArguments _ _ _ _ _) fun _ _ => trivial) fun _ _ _ _ =>
        (yields_macroArguments hg).bind fun _ _ _ hvalues => yields_pure fun _ =>
          .mk (.macroCall hvalues)))

/-! ## Operators -/

theorem yields_unaryValue {op : Surface.UnaryOp} {operand : Surface.Expr} {expected : Option Ty}
    {span : Span} :
    Yields c (unaryValue ask op operand expected span scope) fun d e => e.Guarded d.access := by
  unfold unaryValue
  split
  · exact yields_numberLiteral
  · exact (yields_value hg).bind fun value d _ hvalue => Run.Yields.bind (Q := fun _ _ => True)
      (.of_preserves (preserves_foldUnary _ _ _) fun _ _ => trivial) fun constant e hde _ =>
        yields_pure fun _ => .mk (.unary (hvalue.mono hde.grows))

theorem yields_logicalValue {op : Surface.BinaryOp} {left right : Surface.Expr} {span : Span} :
    Yields c (logicalValue ask op left right span scope) fun d e => e.Guarded d.access :=
  (yields_value hg).bind fun _ _ _ ha => (yields_value hg).bind fun _ _ hright hb =>
    yields_pure fun _ => .mk (.binary (ha.mono hright.grows) hb)

theorem yields_operandValues {left right : Surface.Expr} {hint : Option Ty} :
    Yields c (operandValues ask left right hint scope) fun d operands =>
      operands.1.Guarded d.access ∧ operands.2.Guarded d.access := by
  unfold operandValues
  split
  · refine (yields_value hg).bind fun b d _ hb => (yields_value hg).bind fun a e hde ha => ?_
    exact Run.Yields.bind (Q := fun f b' => b'.Guarded f.access)
      (yields_ofExcept fun _ => guarded_coerce (hb.mono hde.grows)) fun b' f hef hb' =>
        yields_pure fun _ => ⟨ha.mono hef.grows, hb'⟩
  · exact (yields_value hg).bind fun a d _ ha => (yields_value hg).bind fun b e hde hb =>
      yields_pure fun _ => ⟨ha.mono hde.grows, hb⟩

theorem yields_binaryValue {op : Surface.BinaryOp} {left right : Surface.Expr}
    {expected : Option Ty} {span : Span} :
    Yields c (binaryValue ask op left right expected span scope) fun d e => e.Guarded d.access := by
  refine (yields_operandValues hg).bind fun operands d _ hoperands => .unless ?_
  exact Run.Yields.bind (Q := fun _ _ => True)
    (.of_preserves (preserves_requireFit _ _ _) fun _ _ => trivial) fun _ e hde _ =>
      yields_pure fun _ => .mk (.binary (hoperands.1.mono hde.grows) (hoperands.2.mono hde.grows))

/-! ## Values -/

theorem yields_requirePlace {e : Surface.Expr} {write : Bool} :
    Yields c (requirePlace ask e write scope) fun d place => place.Guarded d.access := by
  refine (yields_denoted hg).bind fun denoted d _ hdenoted => ?_
  split
  · exact yields_pure fun _ => hdenoted
  · exact yields_reject _ _

theorem yields_referenceValue {target : Surface.Expr} {constant : Bool} {span : Span} :
    Yields c (referenceValue ask target constant span scope) fun d e => e.Guarded d.access := by
  refine (yields_requirePlace hg).bind fun place d _ hplace => yields_pure fun _ =>
    .mk (.address hplace fun hconstant => ?_)
  show (constant || place.constant) = true
  rw [hconstant, Bool.or_true]

/-- A shared pointer to what an owner points at may change it only if the owner may. -/
theorem yields_sharedValue {owner : Surface.Expr} {span : Span} :
    Yields c (sharedValue ask owner span scope) fun d e => e.Guarded d.access := by
  refine (yields_value hg).bind fun value d _ hvalue => ?_
  split
  · rename_i hshape
    refine yields_pure fun _ => .mk (.cast hvalue ?_)
    rw [hshape]
    exact ⟨fun hconstant => hconstant, fun hconstant => hconstant⟩
  · exact yields_reject _ _

theorem yields_rawValue {e : Surface.Expr} {expected : Option Ty} :
    Yields c (rawValue ask e expected scope) fun d v => v.Guarded d.access := by
  unfold rawValue
  extract_lets +onlyGivenNames span
  split
  · exact yields_numberLiteral
  · exact yields_pure fun _ => .mk .bool
  · exact yields_pure fun _ => .mk .str
  · exact yields_callValue hg
  · exact yields_macroValue hg
  · split
    · exact yields_logicalValue hg
    · exact yields_binaryValue hg
  · exact yields_unaryValue hg
  · exact yields_referenceValue hg
  · exact yields_sharedValue hg
  · exact yields_newValue hg
  · exact yields_structValue hg
  · exact yields_arrayValue hg
  · exact yields_filledValue hg
  all_goals exact (yields_denoted hg).bind fun _ _ _ hdenoted => yields_readDenoted hdenoted

theorem yields_checkValue {e : Surface.Expr} {expected : Option Ty} :
    Yields c (checkValue ask e expected scope) fun d v => v.Guarded d.access := by
  refine (yields_rawValue hg).bind fun value d _ hvalue => .unless ?_
  split
  · exact yields_ofExcept fun _ => guarded_coerce hvalue
  · exact yields_pure fun _ => hvalue

theorem yields_checkDenoted {e : Surface.Expr} {write : Bool} :
    Yields c (checkDenoted ask e write scope) fun d denoted => denoted.Guarded d.access := by
  unfold checkDenoted
  split
  · exact yields_pathDenoted hg
  · exact (yields_pointeePlace hg).bind fun _ _ _ hplace => yields_pure fun _ => hplace
  · exact (yields_elementPlace hg).bind fun _ _ _ hplace => yields_pure fun _ => hplace
  · exact yields_memberDenoted hg
  · exact (yields_rawValue hg).bind fun _ _ _ hvalue => yields_pure fun _ => hvalue

end

end OwnLang.Check
