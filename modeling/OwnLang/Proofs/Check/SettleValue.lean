import Mathlib
import OwnLang.Proofs.Check.SettleEntity
import OwnLang.Proofs.Check.Moves

/-!
# Values that are finished

Checking a path, a location, a call or any other expression finishes the entities that it asks for, and
the trees that it returns mention declared structs only. `Settler.step` puts the parts together for all
queries that no statement is checked for.
-/

namespace OwnLang

namespace Context

variable {c d : Context}

/-! ## What is taken out of trees and frames -/

theorem Knows.shape {t : Ty} {shape : Shape} (h : c.Knows t) (hshape : t.shape = shape) :
    c.Knows shape := hshape ▸ knows_shape.mpr h

theorem Knows.pointee {shape : Shape} {target : Ty} {constant : Bool} (h : c.Knows shape)
    (hpointee : shape.pointee? = some (target, constant)) : c.Knows target := by
  unfold Shape.pointee? at hpointee
  split at hpointee <;> cases hpointee
  · exact knows_owner.mp h
  · exact knows_shared.mp h

theorem Knows.struct {shape : Shape} {id : StructId} (h : c.Knows shape)
    (hstruct : shape.struct? = some id) : id.index < c.structs.size := by
  unfold Shape.struct? at hstruct
  split at hstruct <;> cases hstruct
  exact knows_struct.mp h

theorem Knows.read {place : Core.Place} (h : c.Knows place) : c.Knows place.read :=
  knows_computed.mpr ⟨knows_load.mpr h, h.placeType⟩

theorem Knows.pointerTo {place : Core.Place} (h : c.Knows place) (constant : Bool) (span : Span) :
    c.Knows (place.pointerTo constant span) :=
  knows_computed.mpr ⟨knows_address.mpr h, knows_shapePlain.mpr (knows_shared.mpr h.placeType)⟩

theorem knows_literal {value : Int} {t : Ty} {width : Width} {span : Span} {e : Core.Expr}
    (ht : c.Knows t) (h : Core.Expr.literal value t width span = .ok e) : c.Knows e := by
  unfold Core.Expr.literal at h
  split at h <;> cases h
  exact knows_ofConst.mpr ⟨knows_literalInt, ht⟩

theorem knows_coerce {value e : Core.Expr} {t : Ty} (hvalue : c.Knows value) (ht : c.Knows t)
    (h : value.coerce t = .ok e) : c.Knows e := by
  unfold Core.Expr.coerce at h
  split at h
  · cases h
    exact hvalue
  · split at h
    · exact knows_literal ht h
    · cases h
      exact knows_computed.mpr ⟨knows_cast.mpr hvalue, ht⟩
    · cases h
      exact knows_expr.mpr ⟨knows_cast.mpr hvalue, ht⟩
    · cases h

theorem knows_initialized {kind : Core.ExprKind} {t : Ty} {heap : Bool} {span : Span}
    (hkind : c.Knows kind) (ht : c.Knows t) : c.Knows (Check.initialized kind t heap span) := by
  refine knows_computed.mpr ⟨hkind, ?_⟩
  split
  · exact knows_shapePlain.mpr (knows_owner.mpr ht)
  · exact ht

theorem Knows.local {f : Frame} (h : c.Knows f) (id : LocalId) : c.Knows (f.localAt id).type := by
  unfold Frame.localAt
  cases hfound : f.locals[id.index]? with
  | none => exact knows_of_nil rfl
  | some l => exact knows_list.mp (knows_frame.mp h).1 l (Array.mem_toList_iff.mpr
      (Array.mem_of_getElem? hfound))

/-- A frame is known by the types of its locals. -/
theorem knows_frame_of_locals {f : Frame} (hlocals : ∀ id : LocalId, id.index < f.locals.size →
    c.Knows (f.localAt id).type) (hreturns : c.Knows f.returns) (hreceiver : c.Knows f.receiver) :
    c.Knows f := by
  refine knows_frame.mpr ⟨knows_list.mpr fun l hl => ?_, hreturns, hreceiver⟩
  obtain ⟨i, hi, rfl⟩ := Array.getElem_of_mem (Array.mem_toList_iff.mp hl)
  have hknown := hlocals ⟨i⟩ hi
  unfold Frame.localAt at hknown
  rw [Array.getElem?_eq_getElem hi] at hknown
  exact hknown

theorem Knows.moves {f g : Frame} (h : c.Knows f) (hmoves : f.Moves g) : c.Knows g := by
  obtain ⟨-, hreturns, hreceiver⟩ := knows_frame.mp h
  refine knows_frame_of_locals (fun id _ => ?_) (hmoves.returns ▸ hreturns)
    (hmoves.receiver ▸ hreceiver)
  rw [hmoves.localAt id]
  exact h.local id

theorem Coherent.here (h : c.Coherent) : c.Knows (Context.here c) := by
  unfold Context.here
  have hframe := h.closed.frame
  cases hopen : c.frame with
  | none => exact knows_of_nil rfl
  | some f => exact knows_some.mp (hopen ▸ hframe)

end Context

namespace Check

open Surface (Ident)

variable {ask : Asker} {c d : Context} {scope : Scope}

/-! ## Frames -/

theorem settling_frame_bind {β : Type} [Mentions β] {f : Frame → Check β}
    (h : c.Knows c.here → Settling c (f c.here)) :
    Settling c (frame >>= f) := fun hc => h hc.here hc

theorem settles_reframe {change : Frame → Frame} (hc : c.Coherent)
    (h : ∀ f, c.Knows f → c.Knows (change f)) :
    c.Settles (c.reframe change) ∧ (c.reframe change).Coherent := by
  refine ⟨(c.alike_frame _).settles, (c.alike_frame _).coherent hc ?_⟩
  have hframe := hc.closed.frame
  show c.Knows (c.frame.map change)
  cases hopen : c.frame with
  | none => exact Context.knows_none
  | some f => exact h f (Context.knows_some.mp (hopen ▸ hframe))

theorem settling_modifyFrame {change : Frame → Frame} (h : ∀ f, c.Knows f → c.Knows (change f)) :
    Settling c (modifyFrame change) := by
  intro hc _ d hrun
  cases hrun
  obtain ⟨hsettles, hd⟩ := settles_reframe hc h
  exact ⟨hsettles, hd, Context.knows_plain _⟩

theorem settling_consume {value : Core.Expr} : Settling c (consume value) := by
  unfold consume
  split
  · exact settling_pure (Context.knows_plain _)
  · split
    · exact settling_pure (Context.knows_plain _)
    · split
      · rename_i id _
        refine (settling_modifyFrame fun f hf => hf.moves (f.moves_modifyLocal id _)).bind
          fun _ d _ _ => settling_frame_bind fun hhere => ?_
        exact (settling_ofExcept fun f hf => hhere.moves (Frame.moves_parkMove hf)).bind
          fun parked e _ hparked => settling_modifyFrame fun _ _ => hparked
      · exact settling_reject _ _

/-! ## What is read off -/

theorem settling_readPlace {place : Core.Place} (hplace : c.Knows place) :
    Settling c (readPlace place) := by
  unfold readPlace
  exact .unless (settling_get_bind fun _ => settling_pure
    (Context.knows_expr.mpr ⟨Context.knows_load.mpr hplace, hplace.placeType⟩))

theorem settling_readDenoted {denoted : Denoted} (hdenoted : c.Knows denoted) :
    Settling c (readDenoted denoted) := by
  unfold readDenoted
  split
  · exact settling_pure (Context.knows_denotedValue.mp hdenoted)
  · exact settling_readPlace (Context.knows_denotedPlace.mp hdenoted)

theorem settling_slotPlace {id : LocalId} {write : Bool} {span : Span} :
    Settling c (slotPlace id write span) := by
  refine settling_frame_bind fun hhere => ?_
  dsimp only
  split
  · exact settling_fail _
  · exact settling_pure (Context.knows_place.mpr ⟨Context.knows_slot, hhere.local id⟩)

theorem settling_fieldAt {id : StructId} {index : Nat} : Settling c (fieldAt id index) := by
  refine settling_get_bind fun hc => settling_pure ?_
  cases hfound : (c.struct id).fields[index]? with
  | none => exact Context.knows_of_nil rfl
  | some field =>
    have hfields := (Context.knows_structDef.mp (hc.closed.structs id)).2
    exact Context.knows_list.mp hfields field (List.mem_of_getElem? hfound)

theorem settling_ownFieldPlace {this : LocalId} {id : StructId} {index : Nat} {span : Span}
    (hid : id.index < c.structs.size) : Settling c (ownFieldPlace this id index span) := by
  refine settling_frame_bind fun hhere => settling_fieldAt.bind fun field d hd hfield =>
    settling_pure ?_
  have hthis := hd.knows (hhere.local this)
  have hbase : d.Knows (Core.Place.mk (.slot this) (c.here.localAt this).type true span) :=
    Context.knows_place.mpr ⟨Context.knows_slot, hthis⟩
  exact Context.knows_place.mpr ⟨Context.knows_field.mpr ⟨hid.trans_le hd.structCount, hbase.read⟩,
    (Context.knows_fieldDef.mp hfield).1⟩

theorem settling_fieldDenoted {id : StructId} {index : Nat} {receiver : Receiver} {span : Span}
    (hid : id.index < c.structs.size) (hreceiver : c.Knows receiver) :
    Settling c (fieldDenoted id index receiver span) := by
  refine settling_fieldAt.bind fun field d hd hfield => ?_
  have htype := (Context.knows_fieldDef.mp hfield).1
  split
  · refine settling_pure (Context.knows_denotedPlace.mpr (Context.knows_place.mpr ⟨?_, htype⟩))
    exact Context.knows_field.mpr ⟨hid.trans_le hd.structCount,
      hd.knows (Context.knows_receiverPointer.mp hreceiver)⟩
  · refine settling_pure (Context.knows_denotedValue.mpr (Context.knows_computed.mpr ⟨?_, htype⟩))
    exact Context.knows_extract.mpr (hd.knows (Context.knows_receiverTemporary.mp hreceiver))

theorem settling_elementsOf {value : Core.Expr} {span : Span} (hvalue : c.Knows value) :
    Settling c (elementsOf value span) := by
  have hbehind {target element : Ty} {constant arrayConstant : Bool} {size : Option Nat}
      (htarget : c.Knows target) (hshape : target.shape = .array element arrayConstant size) :
      c.Knows (⟨value, element, constant || arrayConstant⟩ : Elements) :=
    Context.knows_elements.mpr ⟨hvalue, Context.knows_array.mp (htarget.shape hshape)⟩
  unfold elementsOf
  split
  · rename_i hshape
    exact settling_pure (Context.knows_elements.mpr
      ⟨hvalue, Context.knows_array.mp (hvalue.type.shape hshape)⟩)
  · exact settling_reject _ _
  · rename_i hshape
    dsimp only
    split
    · rename_i harray
      exact settling_pure (hbehind (Context.knows_owner.mp (hvalue.type.shape hshape)) harray)
    · exact settling_reject _ _
  · rename_i hshape
    dsimp only
    split
    · rename_i harray
      exact settling_pure (hbehind (Context.knows_shared.mp (hvalue.type.shape hshape)) harray)
    · exact settling_reject _ _
  · exact settling_reject _ _

theorem settling_elementsDenoted {denoted : Denoted} {baseSpan span : Span}
    (hdenoted : c.Knows denoted) : Settling c (elementsDenoted denoted baseSpan span) := by
  unfold elementsDenoted
  split
  · have hplace := Context.knows_denotedPlace.mp hdenoted
    split
    · rename_i hshape
      exact settling_pure (Context.knows_elements.mpr
        ⟨hplace.pointerTo _ _, Context.knows_array.mp (hplace.placeType.shape hshape)⟩)
    · exact (settling_readPlace hplace).bind fun value d _ hvalue => settling_elementsOf hvalue
  · exact settling_elementsOf (Context.knows_denotedValue.mp hdenoted)

theorem settling_receiverOfValue {value : Core.Expr} {span : Span} (hvalue : c.Knows value) :
    Settling c (receiverOfValue value span) := by
  have htype := Context.knows_shape.mpr hvalue.type
  unfold receiverOfValue
  split
  · rename_i hstruct
    exact settling_pure (Context.knows_pair.mpr ⟨Context.knows_structId.mpr (htype.struct hstruct),
      Context.knows_receiverTemporary.mpr hvalue⟩)
  · rename_i hpointee
    have htarget := Context.knows_shape.mpr (htype.pointee hpointee)
    split
    · rename_i hstruct
      exact settling_pure (Context.knows_pair.mpr
        ⟨Context.knows_structId.mpr (htarget.struct hstruct), Context.knows_receiverPointer.mpr hvalue⟩)
    · exact settling_reject _ _
  · exact settling_reject _ _

theorem settling_memberReferent {path : List Ident} {member : Option Member} :
    Settling c (memberReferent path member) := by
  unfold memberReferent
  split
  · exact settling_pure Context.knows_referentGlobal
  · exact settling_reject _ _
  · exact settling_reject _ _

theorem knows_innerReferent (hc : c.Coherent) {name : String} {referent : Referent}
    (hfound : innerReferent? c name = some referent) : c.Knows referent := by
  unfold innerReferent? at hfound
  have hframe := hc.closed.frame
  split at hfound
  · cases hfound
  · rename_i f hopen
    rw [hopen] at hframe
    split at hfound
    · cases hfound
      exact Context.knows_referentSlot
    · rename_i hreceiver
      obtain ⟨index, -, rfl⟩ := Option.map_eq_some_iff.mp hfound
      have hthis := (Context.knows_frame.mp (Context.knows_some.mp hframe)).2.2
      rw [hreceiver] at hthis
      exact Context.knows_referentField.mpr
        (Context.knows_structId.mp (Context.knows_pair.mp (Context.knows_some.mp hthis)).2)
    · cases hfound

section

variable (h : Settler ask)

include h

/-! ## Paths -/

theorem settling_structOfPath {path : List Ident} :
    Settling c (structOfPath ask path scope) := by
  refine settling_get_bind fun hc => (settling_ofExcept fun member hfound =>
    knows_memberOfPath hc.closed hfound).bind fun member d hd hmember => ?_
  split
  · exact settling_pure hmember
  · refine (settling_typeAlias h).bind fun t e _ ht => ?_
    split
    · rename_i hstruct
      exact settling_pure (Context.knows_structId.mpr ((Context.knows_shape.mpr ht).struct hstruct))
    · exact settling_reject _ _
  · exact settling_reject _ _

theorem settling_memberOfStruct {path : List Ident} {member : Ident} :
    Settling c (memberOfStruct ask path member scope) := by
  refine (settling_structOfPath h).bind fun id _ _ _ => (settling_layout h).bind
    fun _ _ _ _ => settling_get_bind fun _ => ?_
  dsimp only
  split
  · exact settling_pure Context.knows_referentGlobal
  · exact settling_reject _ _

theorem settling_templateReferent {path : List Ident} {args : List Surface.TypeExpr}
    (hscope : c.Knows scope) : Settling c (templateReferent ask path args scope) := by
  refine settling_get_bind fun hc => (settling_ofExcept fun member hfound =>
    knows_memberOfPath hc.closed hfound).bind fun member d hd _ => ?_
  split
  · refine (settling_types h _ (hd.knows hscope)).bind fun types e _ htypes =>
      (settling_instantiate h htypes).bind fun entity _ _ _ => ?_
    split
    · exact settling_pure Context.knows_referentGlobal
    · exact settling_reject _ _
  · exact settling_reject _ _
  · exact settling_reject _ _

theorem settling_plainReferent {path : List Ident} :
    Settling c (plainReferent ask path scope) := by
  unfold plainReferent
  refine settling_get_bind fun hc => ?_
  split
  · split
    · rename_i hfound
      exact settling_pure (knows_innerReferent hc hfound)
    · exact settling_memberReferent
  · split
    · exact settling_memberReferent
    · exact settling_memberOfStruct h
  · exact settling_memberOfStruct h
  · exact settling_memberReferent

theorem settling_resolvePath {path : List Ident} {args : List Surface.TypeExpr}
    (hscope : c.Knows scope) : Settling c (resolvePath ask path args scope) := by
  unfold resolvePath
  split
  · exact settling_plainReferent h
  · exact settling_templateReferent h hscope

/-! ## Locations -/

theorem settling_globalDenoted {id : GlobalId} {span : Span} :
    Settling c (globalDenoted ask id span) := by
  refine (settling_global h).bind fun t d _ ht => settling_get_bind fun _ => ?_
  dsimp only
  split
  · exact settling_pure (Context.knows_denotedValue.mpr
      (Context.knows_computed.mpr ⟨Context.knows_function, ht⟩))
  · exact settling_pure (Context.knows_denotedPlace.mpr
      (Context.knows_place.mpr ⟨Context.knows_global, ht⟩))

theorem settling_pathDenoted {path : List Ident} {args : List Surface.TypeExpr} {write : Bool}
    {span : Span} (hscope : c.Knows scope) :
    Settling c (pathDenoted ask path args write span scope) := by
  refine (settling_resolvePath h hscope).bind fun referent d _ hreferent => ?_
  split
  · exact settling_slotPlace.bind fun _ _ _ hplace =>
      settling_pure (Context.knows_denotedPlace.mpr hplace)
  · exact settling_globalDenoted h
  · exact (settling_ownFieldPlace (Context.knows_referentField.mp hreferent)).bind
      fun _ _ _ hplace => settling_pure (Context.knows_denotedPlace.mpr hplace)

theorem settling_pointeePlace {pointer : Surface.Expr} {span : Span} (hscope : c.Knows scope) :
    Settling c (pointeePlace ask pointer span scope) := by
  refine (settling_value h Context.knows_none hscope).bind fun value d _ hvalue => ?_
  split
  · exact settling_reject _ _
  · rename_i hpointee
    have htarget := (Context.knows_shape.mpr hvalue.type).pointee hpointee
    exact .unless ((settling_complete h _ _).bind fun _ e he _ => settling_pure
      (Context.knows_place.mpr ⟨Context.knows_deref.mpr (he.knows hvalue), he.knows htarget⟩))

theorem settling_elementPlace {base index : Surface.Expr} {span : Span} (hscope : c.Knows scope) :
    Settling c (elementPlace ask base index span scope) := by
  refine (settling_denoted h hscope).bind fun denoted d hd hdenoted =>
    (settling_elementsDenoted hdenoted).bind fun elements e he helements => ?_
  obtain ⟨hdata, helement⟩ := Context.knows_elements.mp helements
  exact (settling_value h (Context.knows_some.mpr (Context.knows_of_nil rfl))
    ((hd.trans he).knows hscope)).bind fun position g hg hposition => settling_pure
      (Context.knows_place.mpr ⟨Context.knows_element.mpr ⟨hg.knows hdata, hposition⟩,
        hg.knows helement⟩)

theorem settling_receiverOf {base : Surface.Expr} (hscope : c.Knows scope) :
    Settling c (receiverOf ask base scope) := by
  refine (settling_denoted h hscope).bind fun denoted d _ hdenoted => ?_
  split
  · exact settling_receiverOfValue (Context.knows_denotedValue.mp hdenoted)
  · have hplace := Context.knows_denotedPlace.mp hdenoted
    split
    · rename_i hstruct
      exact settling_pure (Context.knows_pair.mpr ⟨Context.knows_structId.mpr
        ((Context.knows_shape.mpr hplace.placeType).struct hstruct),
        Context.knows_receiverPointer.mpr (hplace.pointerTo _ _)⟩)
    · exact (settling_readPlace hplace).bind fun value e _ hvalue => settling_receiverOfValue hvalue

theorem settling_structMember {id : StructId} {member : Ident} :
    Settling c (structMember ask id member) := by
  refine (settling_layout h).bind fun _ _ _ _ => settling_get_bind fun _ => ?_
  dsimp only
  split
  · exact settling_pure (Context.knows_plain _)
  · exact settling_pure (Context.knows_plain _)
  · exact settling_reject _ _

theorem settling_memberDenoted {base : Surface.Expr} {member : Ident} {span : Span}
    (hscope : c.Knows scope) : Settling c (memberDenoted ask base member span scope) := by
  refine (settling_receiverOf h hscope).bind fun found d _ hfound => ?_
  obtain ⟨hid, hreceiver⟩ := Context.knows_pair.mp hfound
  refine (settling_structMember h).bind fun kind e he _ => ?_
  split
  · exact settling_fieldDenoted ((Context.knows_structId.mp hid).trans_le he.structCount)
      (he.knows hreceiver)
  · exact (settling_global h).bind fun t g _ ht => settling_pure (Context.knows_denotedValue.mpr
      (Context.knows_computed.mpr ⟨Context.knows_function, ht⟩))
  · exact settling_reject _ _

/-! ## Initializers -/

theorem settling_objectType {t : Surface.TypeExpr} (hscope : c.Knows scope) :
    Settling c (objectType ask t scope) :=
  (settling_type h hscope).bind fun resolved _ _ hknown =>
    (settling_requireValueType resolved _).bind fun _ _ hd _ =>
      (settling_complete h resolved _).bind fun _ _ he _ =>
        settling_pure (he.knows (hd.knows hknown))

theorem settling_newValue {t : Surface.TypeExpr} {value : Surface.Expr} {span : Span}
    (hscope : c.Knows scope) : Settling c (newValue ask t value span scope) := by
  refine (settling_objectType h hscope).bind fun target d hd htarget => .unless ?_
  refine (settling_value h (Context.knows_some.mpr htarget) (hd.knows hscope)).bind
    fun content e he hcontent => settling_consume.bind fun _ g hg _ => settling_pure ?_
  exact Context.knows_initialized (Context.knows_new.mpr (hg.knows hcontent))
    ((he.trans hg).knows htarget)

theorem settling_writtenFields {fields : List Field} {done : List FieldValue}
    {written : List (Ident × Surface.Expr)} (hfields : c.Knows fields) (hdone : c.Knows done)
    (hscope : c.Knows scope) : Settling c (writtenFields ask scope fields done written) := by
  induction written generalizing c done with
  | nil => exact settling_pure hdone
  | cons field rest ih =>
    unfold writtenFields
    split
    · exact settling_reject _ _
    · rename_i index _
      extract_lets +onlyGivenNames fill
      have hexpected : c.Knows (fields[index]?.map (·.type)) := by
        refine Context.knows_option.mpr fun t ht => ?_
        obtain ⟨found, hfound, rfl⟩ := Option.map_eq_some_iff.mp ht
        have hmem := Context.knows_list.mp hfields found (List.mem_of_getElem? hfound)
        exact (Context.knows_fieldDef.mp hmem).1
      have hfill : Settling c (fill ⟨⟩) := by
        refine (settling_value h hexpected hscope).bind fun value d hd hvalue =>
          settling_consume.bind fun _ e he _ => ?_
        have hce := hd.trans he
        refine ih (hce.knows hfields) (Context.knows_append.mpr ⟨hce.knows hdone, ?_⟩)
          (hce.knows hscope)
        exact Context.knows_cons.mpr ⟨Context.knows_fieldValue.mpr (he.knows hvalue),
          Context.knows_nil⟩
      split
      · exact settling_fail_bind _ _
      · exact hfill

omit h in
theorem knows_fieldValues {written : List FieldValue} {span : Span} {index : Nat}
    {fields : List Field} {values : List Core.Expr} (hwritten : c.Knows written)
    (hfields : c.Knows fields) (hvalues : fieldValues written span index fields = .ok values) :
    c.Knows values := by
  induction fields generalizing index values with
  | nil =>
    cases hvalues
    exact Context.knows_nil
  | cons field rest ih =>
    obtain ⟨hfield, hrest⟩ := Context.knows_cons.mp hfields
    unfold fieldValues at hvalues
    split at hvalues
    · rename_i value hfound
      cases hmore : fieldValues written span (index + 1) rest with
      | error diagnostic =>
        rw [hmore] at hvalues
        cases hvalues
      | ok more =>
        rw [hmore] at hvalues
        cases hvalues
        refine Context.knows_cons.mpr ⟨?_, ih hrest hmore⟩
        rcases Option.or_eq_some_iff.mp hfound with hgiven | ⟨-, hdefault⟩
        · obtain ⟨one, hone, rfl⟩ := Option.map_eq_some_iff.mp hgiven
          exact Context.knows_list.mp hwritten one (List.mem_of_find?_eq_some hone)
        · exact Context.knows_option.mp (Context.knows_fieldDef.mp hfield).2 value hdefault
    · cases hvalues

theorem settling_structValue {t : Surface.TypeExpr} {fields : List (Ident × Surface.Expr)}
    {heap : Bool} {span : Span} (hscope : c.Knows scope) :
    Settling c (structValue ask t fields heap span scope) := by
  refine (settling_type h hscope).bind fun target d hd htarget => ?_
  split
  · exact settling_reject _ _
  · rename_i id hstruct
    have hid := (Context.knows_shape.mpr htarget).struct hstruct
    refine (settling_layout h).bind fun _ e he _ => settling_get_bind fun hcoherent => ?_
    have hdeclared := (Context.knows_structDef.mp (hcoherent.closed.structs id)).2
    refine (settling_writtenFields h hdeclared Context.knows_nil ((hd.trans he).knows hscope)).bind
      fun written f hf hwritten => (settling_ofExcept fun values hvalues =>
        knows_fieldValues hwritten (hf.knows hdeclared) hvalues).bind
        fun values g hg hvalues => settling_pure ?_
    have hdg := he.trans (hf.trans hg)
    exact Context.knows_initialized
      (Context.knows_structInit.mpr ⟨hid.trans_le hdg.structCount, hvalues⟩) (hdg.knows htarget)

theorem settling_elementValues {element : Ty} {values : List Surface.Expr}
    (helement : c.Knows element) (hscope : c.Knows scope) :
    Settling c (elementValues ask scope element values) := by
  induction values generalizing c with
  | nil => exact settling_pure Context.knows_nil
  | cons e rest ih =>
    refine (settling_value h (Context.knows_some.mpr helement) hscope).bind fun value d hd hvalue =>
      settling_consume.bind fun _ e he _ => ?_
    have hce := hd.trans he
    exact (ih (hce.knows helement) (hce.knows hscope)).bind fun values f hf hvalues =>
      settling_pure (Context.knows_cons.mpr ⟨hf.knows (he.knows hvalue), hvalues⟩)

theorem settling_arrayValue {t : Surface.TypeExpr} {values : List Surface.Expr} {heap : Bool}
    {span : Span} (hscope : c.Knows scope) :
    Settling c (arrayValue ask t values heap span scope) := by
  refine (settling_objectType h hscope).bind fun element d hd helement =>
    (settling_elementValues h helement (hd.knows hscope)).bind fun values e he hvalues =>
      settling_pure ?_
  have helement := he.knows helement
  exact Context.knows_initialized (Context.knows_arrayInit.mpr ⟨helement, hvalues⟩)
    (Context.knows_shapePlain.mpr (Context.knows_array.mpr helement))

theorem settling_filledValue {t : Surface.TypeExpr} {size value : Surface.Expr} {heap : Bool}
    {span : Span} (hscope : c.Knows scope) :
    Settling c (filledValue ask t size value heap span scope) := by
  refine (settling_objectType h hscope).bind fun element d hd helement => .unless ?_
  refine (settling_value h (Context.knows_some.mpr (Context.knows_of_nil rfl))
    (hd.knows hscope)).bind fun count e he hcount => ?_
  refine (Settling.of_preserves (preserves_fillSize _ _) fun _ _ _ => Context.knows_option.mpr
    fun _ _ => Context.knows_plain _).bind fun known f hf _ => ?_
  have hdf := he.trans hf
  refine (settling_value h (Context.knows_some.mpr (hdf.knows helement))
    ((hd.trans hdf).knows hscope)).bind fun content g hg hcontent => .unless (settling_pure ?_)
  have helement := (hdf.trans hg).knows helement
  exact Context.knows_initialized
    (Context.knows_arrayFill.mpr ⟨helement, (hf.trans hg).knows hcount, hcontent⟩)
    (Context.knows_shapePlain.mpr (Context.knows_array.mpr helement))

/-! ## Calls -/

omit h in
theorem settling_requireArguments {params : Nat} {variadic : Bool} {bound received : Nat}
    {span : Span} : Settling c (requireArguments params variadic bound received span) :=
  .of_preserves (preserves_requireArguments _ _ _ _ _) fun _ _ _ => Context.knows_plain _

theorem settling_argumentValues {params : List Ty} {args : List Surface.Expr}
    (hparams : c.Knows params) (hscope : c.Knows scope) :
    Settling c (argumentValues ask scope params args) := by
  induction args generalizing c params with
  | nil => exact settling_pure Context.knows_nil
  | cons arg rest ih =>
    have hhead : c.Knows params.head? := Context.knows_option.mpr fun t ht =>
      Context.knows_list.mp hparams t (List.mem_of_head? ht)
    have htail : c.Knows params.tail := Context.knows_list.mpr fun t ht =>
      Context.knows_list.mp hparams t (List.mem_of_mem_tail ht)
    refine (settling_value h hhead hscope).bind fun value d hd hvalue =>
      settling_consume.bind fun _ e he _ => ?_
    have hce := hd.trans he
    exact (ih (hce.knows htail) (hce.knows hscope)).bind fun values f hf hvalues =>
      settling_pure (Context.knows_cons.mpr ⟨hf.knows (he.knows hvalue), hvalues⟩)

theorem settling_callOf {callee : Core.Expr} {receiver : List Core.Expr} {args : List Surface.Expr}
    {span : Span} (hcallee : c.Knows callee) (hreceiver : c.Knows receiver)
    (hscope : c.Knows scope) : Settling c (callOf ask callee receiver args span scope) := by
  unfold callOf
  split
  · rename_i params _ _ hshape
    obtain ⟨hparams, hreturns⟩ := Context.knows_func.mp (hcallee.type.shape hshape)
    refine settling_requireArguments.bind fun _ d hd _ => ?_
    have hdropped : d.Knows (params.drop receiver.length) := Context.knows_list.mpr fun t ht =>
      Context.knows_list.mp (hd.knows hparams) t (List.mem_of_mem_drop ht)
    refine (settling_argumentValues h hdropped (hd.knows hscope)).bind fun values e he hvalues =>
      settling_pure ?_
    have hce := hd.trans he
    exact Context.knows_computed.mpr ⟨Context.knows_call.mpr
      ⟨hce.knows hcallee, Context.knows_append.mpr ⟨hce.knows hreceiver, hvalues⟩⟩,
      hce.knows hreturns⟩
  · exact settling_reject _ _

theorem settling_receiverArgument {method : GlobalId} {receiver : Receiver} {base : Surface.Expr}
    {member : Ident} (hreceiver : c.Knows receiver) :
    Settling c (receiverArgument ask method receiver base member) := by
  unfold receiverArgument
  split
  · exact settling_reject _ _
  · have hvalue := Context.knows_receiverPointer.mp hreceiver
    refine settling_get_bind fun _ => .unless ((settling_global h).bind fun t d hd ht => ?_)
    extract_lets +onlyGivenNames first
    have hfirst : d.Knows first := by
      dsimp only [first]
      split
      · rename_i hshape
        exact Context.knows_option.mpr fun this hthis =>
          Context.knows_list.mp (Context.knows_func.mp (ht.shape hshape)).1 this
            (List.mem_of_head? hthis)
      · exact Context.knows_none
    clear_value first
    split
    · exact (settling_ofExcept fun value hcoerced => Context.knows_coerce (hd.knows hvalue)
        (Context.knows_some.mp hfirst) hcoerced).bind fun value e he hvalue =>
          settling_pure (Context.knows_pair.mpr ⟨hvalue, he.knows ht⟩)
    · exact settling_pure (Context.knows_pair.mpr ⟨hd.knows hvalue, ht⟩)

theorem settling_memberCall {base : Surface.Expr} {member : Ident} {args : List Surface.Expr}
    {span : Span} (hscope : c.Knows scope) :
    Settling c (memberCall ask base member args span scope) := by
  refine (settling_receiverOf h hscope).bind fun found d hd hfound => ?_
  obtain ⟨hid, hreceiver⟩ := Context.knows_pair.mp hfound
  refine (settling_structMember h).bind fun kind e he _ => ?_
  have hscope := (hd.trans he).knows hscope
  split
  · exact (settling_fieldDenoted ((Context.knows_structId.mp hid).trans_le he.structCount)
      (he.knows hreceiver)).bind fun denoted f hf hdenoted => (settling_readDenoted hdenoted).bind
        fun callee g hg hcallee =>
          settling_callOf h hcallee Context.knows_nil ((hf.trans hg).knows hscope)
  · exact (settling_global h).bind fun t f hf ht => settling_callOf h
      (Context.knows_computed.mpr ⟨Context.knows_function, ht⟩) Context.knows_nil (hf.knows hscope)
  · refine (settling_receiverArgument h (he.knows hreceiver)).bind fun first f hf hfirst => ?_
    obtain ⟨hthis, ht⟩ := Context.knows_pair.mp hfirst
    exact settling_callOf h (Context.knows_computed.mpr ⟨Context.knows_function, ht⟩)
      (Context.knows_cons.mpr ⟨hthis, Context.knows_nil⟩) (hf.knows hscope)

theorem settling_callValue {callee : Surface.Expr} {args : List Surface.Expr} {span : Span}
    (hscope : c.Knows scope) : Settling c (callValue ask callee args span scope) := by
  unfold callValue
  split
  · exact settling_memberCall h hscope
  · exact (settling_value h Context.knows_none hscope).bind fun value d hd hvalue =>
      settling_callOf h hvalue Context.knows_nil (hd.knows hscope)

theorem settling_macroArguments {params : List MacroParam} {args : List Surface.Expr}
    (hparams : c.Knows params) (hscope : c.Knows scope) :
    Settling c (macroArguments ask scope params args) := by
  induction args generalizing c params with
  | nil => exact settling_pure Context.knows_nil
  | cons arg rest ih =>
    have hhead : c.Knows (params.head?.map (·.type)) := by
      refine Context.knows_option.mpr fun t ht => ?_
      obtain ⟨param, hparam, rfl⟩ := Option.map_eq_some_iff.mp ht
      exact Context.knows_list.mp hparams param (List.mem_of_head? hparam)
    have htail : c.Knows params.tail := Context.knows_list.mpr fun t ht =>
      Context.knows_list.mp hparams t (List.mem_of_mem_tail ht)
    refine (settling_value h hhead hscope).bind fun value d hd hvalue =>
      .unless (settling_consume.bind fun _ e he _ => ?_)
    have hce := hd.trans he
    exact (ih (hce.knows htail) (hce.knows hscope)).bind fun values f hf hvalues =>
      settling_pure (Context.knows_cons.mpr ⟨hf.knows (he.knows hvalue), hvalues⟩)

theorem settling_namedMacro {path : List Ident} : Settling c (namedMacro ask path scope) := by
  refine settling_get_bind fun _ =>
    (settling_ofExcept fun _ _ => Context.knows_plain _).bind fun id d _ _ => ?_
  refine .bind (α := Unit) (fun hc _ e hrun => ?_) fun _ _ _ _ => settling_pure (Context.knows_plain _)
  obtain ⟨hsettles, he, -⟩ := settles_resolveMacro h hc hrun
  exact ⟨hsettles, he, Context.knows_plain _⟩

theorem settling_macroValue {path : List Ident} {args : List Surface.Expr} {span : Span}
    (hscope : c.Knows scope) : Settling c (macroValue ask path args span scope) := by
  refine (settling_namedMacro h).bind fun id d hd _ => settling_get_bind fun hcoherent => .unless ?_
  obtain ⟨-, hparams, hreturns⟩ := Context.knows_macroDef.mp (hcoherent.closed.macros id)
  refine settling_requireArguments.bind fun _ e he _ => (settling_macroArguments h (he.knows hparams)
    ((hd.trans he).knows hscope)).bind fun values f hf hvalues => settling_pure ?_
  exact Context.knows_computed.mpr
    ⟨Context.knows_macroCall.mpr hvalues, (he.trans hf).knows hreturns⟩

/-! ## Operators -/

omit h in
theorem knows_intHint {expected : Option Ty} (hexpected : c.Knows expected) :
    c.Knows (intHint expected) := Context.knows_option.mpr fun t ht =>
  Context.knows_option.mp hexpected t (Option.filter_eq_some_iff.mp ht).1

omit h in
theorem settling_numberLiteral {value : Int} {expected : Option Ty} {span : Span}
    (hexpected : c.Knows expected) : Settling c (numberLiteral value expected span) := by
  refine settling_ofExcept fun e he => Context.knows_literal ?_ he
  cases hhint : intHint expected with
  | none => exact Context.knows_of_nil rfl
  | some t => exact Context.knows_option.mp (knows_intHint hexpected) t hhint

theorem settling_unaryValue {op : Surface.UnaryOp} {operand : Surface.Expr} {expected : Option Ty}
    {span : Span} (hexpected : c.Knows expected) (hscope : c.Knows scope) :
    Settling c (unaryValue ask op operand expected span scope) := by
  unfold unaryValue
  split
  · exact settling_numberLiteral hexpected
  · extract_lets +onlyGivenNames hint
    have hhint : c.Knows hint := by
      dsimp only [hint]
      split
      · exact knows_intHint hexpected
      · exact Context.knows_some.mpr (Context.knows_of_nil rfl)
    refine (settling_value h hhint hscope).bind fun value d _ hvalue =>
      (Settling.of_preserves (preserves_foldUnary _ _ _) fun _ constant _ =>
        Context.knows_option.mpr fun _ _ => Context.knows_plain _).bind fun constant e he _ =>
          settling_pure ?_
    have hvalue := he.knows hvalue
    exact Context.knows_expr.mpr ⟨Context.knows_unary.mpr hvalue, hvalue.type⟩

theorem settling_logicalValue {op : Surface.BinaryOp} {left right : Surface.Expr} {span : Span}
    (hscope : c.Knows scope) : Settling c (logicalValue ask op left right span scope) :=
  (settling_value h (Context.knows_some.mpr (Context.knows_of_nil rfl)) hscope).bind
    fun _ _ hd ha => (settling_value h (Context.knows_some.mpr (Context.knows_of_nil rfl))
      (hd.knows hscope)).bind fun _ _ he hb => settling_pure (Context.knows_expr.mpr
        ⟨Context.knows_binary.mpr ⟨he.knows ha, hb⟩, Context.knows_of_nil rfl⟩)

theorem settling_operandValues {left right : Surface.Expr} {hint : Option Ty} (hhint : c.Knows hint)
    (hscope : c.Knows scope) : Settling c (operandValues ask left right hint scope) := by
  unfold operandValues
  split
  · refine (settling_value h Context.knows_none hscope).bind fun b d hd hb => ?_
    refine (settling_value h (knows_intHint (Context.knows_some.mpr hb.type)) (hd.knows hscope)).bind
      fun a e he ha => ?_
    exact (settling_ofExcept fun coerced hcoerced =>
      Context.knows_coerce (he.knows hb) ha.type hcoerced).bind fun coerced f hf hcoerced =>
        settling_pure (Context.knows_pair.mpr ⟨hf.knows ha, hcoerced⟩)
  · exact (settling_value h hhint hscope).bind fun a d hd ha =>
      (settling_value h (Context.knows_some.mpr ha.type) (hd.knows hscope)).bind fun b e he hb =>
        settling_pure (Context.knows_pair.mpr ⟨he.knows ha, hb⟩)

theorem settling_binaryValue {op : Surface.BinaryOp} {left right : Surface.Expr}
    {expected : Option Ty} {span : Span} (hexpected : c.Knows expected) (hscope : c.Knows scope) :
    Settling c (binaryValue ask op left right expected span scope) := by
  unfold binaryValue
  extract_lets +onlyGivenNames hint
  have hhint : c.Knows hint := by
    dsimp only [hint]
    split
    · exact Context.knows_none
    · exact knows_intHint hexpected
  refine (settling_operandValues h hhint hscope).bind fun operands d _ hoperands => .unless ?_
  obtain ⟨ha, hb⟩ := Context.knows_pair.mp hoperands
  refine (Settling.of_preserves (preserves_requireFit _ _ _) fun _ _ _ => Context.knows_plain _).bind
    fun _ e he _ => settling_pure ?_
  refine Context.knows_expr.mpr ⟨Context.knows_binary.mpr ⟨he.knows ha, he.knows hb⟩, ?_⟩
  split
  · exact Context.knows_of_nil rfl
  · exact (he.knows ha).type

/-! ## Values -/

theorem settling_requirePlace {e : Surface.Expr} {write : Bool} (hscope : c.Knows scope) :
    Settling c (requirePlace ask e write scope) := by
  refine (settling_denoted h hscope).bind fun denoted d _ hdenoted => ?_
  split
  · exact settling_pure (Context.knows_denotedPlace.mp hdenoted)
  · exact settling_reject _ _

theorem settling_referenceValue {target : Surface.Expr} {constant : Bool} {span : Span}
    (hscope : c.Knows scope) : Settling c (referenceValue ask target constant span scope) :=
  (settling_requirePlace h hscope).bind fun _ _ _ hplace => settling_pure (hplace.pointerTo _ _)

theorem settling_sharedValue {owner : Surface.Expr} {span : Span} (hscope : c.Knows scope) :
    Settling c (sharedValue ask owner span scope) := by
  refine (settling_value h Context.knows_none hscope).bind fun value d _ hvalue => ?_
  split
  · rename_i hshape
    exact settling_pure (Context.knows_computed.mpr ⟨Context.knows_cast.mpr hvalue,
      Context.knows_shapePlain.mpr
        (Context.knows_shared.mpr (Context.knows_owner.mp (hvalue.type.shape hshape)))⟩)
  · exact settling_reject _ _

theorem settling_rawValue {e : Surface.Expr} {expected : Option Ty} (hexpected : c.Knows expected)
    (hscope : c.Knows scope) : Settling c (rawValue ask e expected scope) := by
  unfold rawValue
  extract_lets +onlyGivenNames span
  split
  · exact settling_numberLiteral hexpected
  · exact settling_pure (Context.knows_ofConst.mpr ⟨Context.knows_literalBool, Context.knows_of_nil rfl⟩)
  · exact settling_pure (Context.knows_ofConst.mpr ⟨Context.knows_literalText, Context.knows_of_nil rfl⟩)
  · exact settling_callValue h hscope
  · exact settling_macroValue h hscope
  · split
    · exact settling_logicalValue h hscope
    · exact settling_binaryValue h hexpected hscope
  · exact settling_unaryValue h hexpected hscope
  · exact settling_referenceValue h hscope
  · exact settling_sharedValue h hscope
  · exact settling_newValue h hscope
  · exact settling_structValue h hscope
  · exact settling_arrayValue h hscope
  · exact settling_filledValue h hscope
  all_goals exact (settling_denoted h hscope).bind fun _ _ _ hdenoted => settling_readDenoted hdenoted

theorem settling_checkValue {e : Surface.Expr} {expected : Option Ty} (hexpected : c.Knows expected)
    (hscope : c.Knows scope) : Settling c (checkValue ask e expected scope) := by
  refine (settling_rawValue h hexpected hscope).bind fun value d hd hvalue => .unless ?_
  split
  · exact settling_ofExcept fun coerced hcoerced =>
      Context.knows_coerce hvalue (hd.knows (Context.knows_some.mp hexpected)) hcoerced
  · exact settling_pure hvalue

theorem settling_checkDenoted {e : Surface.Expr} {write : Bool} (hscope : c.Knows scope) :
    Settling c (checkDenoted ask e write scope) := by
  unfold checkDenoted
  split
  · exact settling_pathDenoted h hscope
  · exact (settling_pointeePlace h hscope).bind fun _ _ _ hplace =>
      settling_pure (Context.knows_denotedPlace.mpr hplace)
  · exact (settling_elementPlace h hscope).bind fun _ _ _ hplace =>
      settling_pure (Context.knows_denotedPlace.mpr hplace)
  · exact settling_memberDenoted h hscope
  · exact (settling_rawValue h Context.knows_none hscope).bind fun _ _ _ hvalue =>
      settling_pure (Context.knows_denotedValue.mpr hvalue)

end

end Check

end OwnLang
