import Mathlib
import OwnLang.Proofs.Emit.FlowValue
import OwnLang.Proofs.Emit.Linking

/-!
# What expressions refer to

The value of a typed expression whose structs are declared refers to introduced names only
(`Emit.linking_emitExpr`). Typing tells that functions and variables are ones that the module supplies, and
what is known of structs that their types have names.
-/

namespace OwnLang

open Ir (Operand Build)

namespace Linkage

variable {L : Linkage}

@[simp] theorem allows_plain {text : String} : L.Allows (Rendering.plain text) := allows_nil (α := Operand)

theorem allows_conversion {spec : String} {value : Operand} (h : L.Allows value) :
    L.Allows (Rendering.conversion spec value) := allows_cons.mpr ⟨h, allows_nil⟩

theorem allows_appended {r r' : Rendering} (h : L.Allows r) (h' : L.Allows r') : L.Allows (r ++ r') :=
  (allows_append (α := Operand)).mpr ⟨h, h'⟩

theorem allows_joined {separator : String} : ∀ {parts : List Rendering}, L.Allows parts →
    L.Allows (Rendering.joined separator parts)
  | [], _ => allows_plain
  | [_], h => (allows_cons.mp h).1
  | _ :: _ :: _, h =>
    allows_appended (allows_appended (allows_cons.mp h).1 allows_plain) (allows_joined (allows_cons.mp h).2)

end Linkage

namespace Emit

open Linkage

variable {L : Linkage} {α β : Type} [Refers α] [Refers β]

/-! ## Looking at the state -/

theorem linking_reading {e : Emit α} [hlook : Reading e]
    (h : ∀ {s a t}, e s = .ok a t → s.Linked L → L.Allows a) : Linking L e where
  kept hrun := by
    rw [hlook.same hrun]
    exact .refl _
  links hrun hs _ := by
    have hallowed := h hrun hs
    rw [hlook.same hrun]
    exact ⟨hs, hallowed⟩

theorem linking_context : Linking L context := linking_reading fun hrun hs => by
  cases hrun
  exact hs.context

/-- What is read off the checked program. -/
theorem linking_looking {f : Context → α} (h : L.Allows (f L.context)) :
    Linking L (do return f (← context)) :=
  linking_context.bind fun c hc => linking_pure (by rwa [show c = L.context from hc])

/-- What is done with the checked program. -/
theorem linking_inContext {f : Context → Emit β} [hext : Extending (context >>= f)]
    (hf : Linking L (f L.context)) : Linking L (context >>= f) where
  toExtending := hext
  links hrun hs hstrings := by
    obtain ⟨c, t, hcontext, hrest⟩ := Run.bind_eq_ok.mp hrun
    cases hcontext
    rw [hs.context] at hrest
    exact hf.links hrest hs hstrings

theorem linking_irType {t : Ty} (h : L.context.Knows t) : Linking L (irType t) :=
  linking_looking (allows_irType h)

theorem linking_symbolOf {id : GlobalId} (h : L.context.Supplies id) : Linking L (symbolOf id) :=
  linking_looking (f := fun c => Ir.Ref.symbol (c.global id).symbol) (allows_symbol.mpr (L.globals id h))

theorem linking_slot (id : LocalId) : Linking L (slot id) :=
  linking_reading fun hrun hs => hs.slots _ (slot_eq_ok hrun)

theorem linking_byteSize (t : Ty) : Linking L (byteSize t) := linking_reading fun _ _ => trivial

theorem linking_constantOperand (value : Const) {t : Ty} (h : L.context.Knows t) :
    Linking L (constantOperand value t) := by
  unfold constantOperand
  cases value with
  | int n => exact (linking_irType h).bind fun type htype => linking_pure (by simpa using htype)
  | bool b => exact linking_pure (by simp)
  | str text => exact linking_string text

/-! ## Allocating and releasing -/

theorem linking_allocate {size : Operand} (h : L.Allows size) : Linking L (allocate size) :=
  linking_call allows_ptr (allows_symbol.mpr L.malloc) (by simpa using h) allows_none

theorem linking_heapCopy {value : Operand} (h : L.Allows value) (size : Nat) :
    Linking L (heapCopy value size) :=
  (linking_allocate (by simp)).bind fun _ hpointer =>
    (linking_store h hpointer).seq (linking_pure hpointer)

theorem linking_extract {type : Ir.Ty} {value : Operand} (htype : L.Allows type) (h : L.Allows value)
    (index : Nat) : Linking L (extract type value index) :=
  linking_result htype (allows_extract.mpr h)

theorem linking_release : ∀ {value : Operand} {t : Ty}, L.Allows value → L.context.Knows t →
    Linking L (release value t)
  | value, .mk (.owner ..) _, h, _ => by
    unfold release
    exact (linking_call allows_void (allows_symbol.mpr L.free) (by simpa using h) allows_none).bind
      fun _ _ => linking_pure trivial
  | value, .mk (.array element _ (some size)) _, h, ht => by
    have helement : L.context.Knows element := ht
    unfold release
    split
    · refine (linking_irType helement).bind fun type htype => ?_
      refine (linking_forIn fun i _ => ?_).bind fun _ _ => linking_pure trivial
      exact (linking_extract htype h i).bind fun part hpart =>
        (linking_release hpart helement).seq (linking_pure trivial)
    · exact linking_pure trivial
  | _, .mk (.int _) _, _, _ | _, .mk .bool _, _, _ | _, .mk .void _, _, _ | _, .mk (.func ..) _, _, _
  | _, .mk (.shared ..) _, _, _ | _, .mk (.array _ _ none) _, _, _ | _, .mk (.struct ..) _, _, _ => by
    unfold release
    exact linking_pure trivial

theorem linking_dropLocals (ids : List LocalId) : Linking L (dropLocals ids) := by
  induction ids with
  | nil => exact linking_pure trivial
  | cons id rest ih =>
    unfold dropLocals
    refine (linking_slot id).bind fun x hslot => (linking_irType hslot.2).bind fun type htype => ?_
    refine (linking_load htype hslot.1).bind fun value hvalue => ?_
    exact (linking_release hvalue hslot.2).seq ih

/-! ## Formatted output -/

theorem linking_boolText {value : Operand} (h : L.Allows value) : Linking L (boolText value) :=
  (linking_string _).bind fun _ hyes => (linking_string _).bind fun _ hno =>
    linking_result allows_ptr (allows_select.mpr ⟨⟨h, hyes⟩, hno⟩)

/-- The method that makes a text of a struct has a type. -/
theorem supplies_stringMethod {c : Context} {t : Ty} {method : GlobalId}
    (h : stringMethod? c t = some method) : c.Supplies method := by
  simp only [stringMethod?, Option.bind_eq_bind, Option.bind_eq_some_iff] at h
  obtain ⟨_, -, _, -, id, -, ⟨params, variadic, returns⟩, htype, hfound⟩ := h
  obtain rfl : id = method := by
    split at hfound
    · exact Option.some.inj hfound
    · cases hfound
  obtain ⟨name, hfunc⟩ := Context.functionType?_eq_some htype
  exact .inr ⟨_, hfunc, fun _ => ⟨params, variadic, returns, rfl⟩⟩

theorem linking_renderPointer {value : Operand} (h : L.Allows value) (t : Ty) (span : Span) :
    Linking L (renderPointer value t span) := by
  have hext : Extending (renderPointer value t span) := inferInstance
  unfold renderPointer at hext ⊢
  refine linking_inContext ?_
  split
  · exact linking_reject _ _
  · rename_i method hmethod
    exact (linking_symbolOf (supplies_stringMethod hmethod)).bind fun callee hcallee =>
      (linking_call allows_ptr hcallee (by simpa using h) allows_none).bind fun text htext =>
        linking_pure (allows_conversion htext)

section

variable {renderStruct : StructId → Operand → Emit Rendering} (span : Span)
  (hgrowing : ∀ id value, Growing (fun _ => False) 0 (renderStruct id value))
  (hstruct : ∀ (id : StructId) (value : Operand), id.index < L.context.structs.size → L.Allows value →
    Linking L (renderStruct id value))

include hgrowing hstruct

theorem linking_renderGiven : ∀ {value : Operand} {t : Ty}, L.Allows value → L.context.Knows t →
    Linking L (renderGiven renderStruct span value t)
  | _, .mk (.int .w64) _, h, _ | _, .mk (.int .w32) _, h, _ => linking_pure (allows_conversion h)
  | value, .mk (.int .w16) _, h, _ | value, .mk (.int .w8) _, h, _ => by
    unfold renderGiven
    exact (linking_result allows_int (allows_convert.mpr ⟨h, allows_int⟩)).bind fun _ hwidened =>
      linking_pure (allows_conversion hwidened)
  | value, .mk .bool _, h, _ => by
    unfold renderGiven
    exact (linking_boolText h).bind fun _ htext => linking_pure (allows_conversion htext)
  | value, .mk (.array element _ (some size)) _, h, ht => by
    have helement : L.context.Knows element := ht
    have (part : Operand) := growing_renderGiven span hgrowing part element
    unfold renderGiven
    refine (linking_irType helement).bind fun type htype => ?_
    refine (linking_mapM fun i _ => ?_).bind fun parts hparts =>
      linking_pure (allows_appended (allows_appended allows_plain (allows_joined hparts)) allows_plain)
    exact (linking_extract htype h i).bind fun part hpart => linking_renderGiven hpart helement
  | _, .mk (.struct id _) _, h, ht => hstruct id _ (ht id List.mem_cons_self) h
  | value, .mk .void _, h, _ | value, .mk (.func ..) _, h, _ | value, .mk (.shared ..) _, h, _
  | value, .mk (.owner ..) _, h, _ | value, .mk (.array _ _ none) _, h, _ => by
    unfold renderGiven
    split
    · exact linking_pure (allows_conversion h)
    · exact linking_renderPointer h _ span

end

theorem linking_renderStructTo (span : Span) (n : Nat) {id : StructId} (hid : id.index < L.context.structs.size)
    {value : Operand} (h : L.Allows value) : Linking L (renderStructTo span n id value) := by
  induction n generalizing id value with
  | zero => exact linking_stop _
  | succ n ih =>
    have hgrowing (n : Nat) (id : StructId) (value : Operand) :
        Growing (fun _ => False) 0 (renderStructTo span n id value) := growing_renderStructTo span n id value
    have hext := (hgrowing (n + 1) id value).extending
    have := growing_renderGiven span (hgrowing n)
    unfold renderStructTo at hext ⊢
    refine linking_inContext ?_
    refine (linking_mapM fun x hin => ?_).bind fun parts hparts =>
      linking_pure (allows_appended (allows_appended allows_plain (allows_joined hparts)) allows_plain)
    have hfield : L.context.Knows x.1.type := by
      have hfields := (Context.knows_structDef.mp (L.closed.structs id)).2
      exact (Context.knows_fieldDef.mp (Context.knows_list.mp hfields _ (List.fst_mem_of_mem_zipIdx hin))).1
    refine (linking_irType hfield).bind fun type htype => ?_
    refine (linking_extract htype h x.2).bind fun part hpart => ?_
    exact (linking_renderGiven span (hgrowing n) (fun id value hid h => ih hid h) hpart hfield).bind
      fun shown hshown => linking_pure (allows_appended allows_plain hshown)

theorem linking_render {value : Operand} {t : Ty} (h : L.Allows value) (ht : L.context.Knows t) (span : Span) :
    Linking L (render value t span) := by
  have hext : Extending (render value t span) := inferInstance
  unfold render at hext ⊢
  exact linking_inContext (linking_renderGiven span (growing_renderStructTo span _)
    (fun id value hid h => linking_renderStructTo span _ hid h) h ht)

theorem linking_callPrintf {rendering : Rendering} (h : L.Allows rendering) :
    Linking L (callPrintf rendering) := by
  refine (linking_string _).bind fun format hformat => ?_
  refine (linking_call allows_int (allows_symbol.mpr L.printf) (allows_cons.mpr ⟨hformat, h⟩) ?_).bind
    fun _ _ => linking_pure trivial
  simp [printfType]

theorem linking_printValues {rendering : Rendering} (newline : Bool) {owned : List (Operand × Ty)}
    (h : L.Allows rendering) (howned : L.Allows owned) : Linking L (printValues rendering newline owned) := by
  unfold printValues
  refine (linking_callPrintf (allows_appended h allows_nil)).seq ?_
  refine (linking_forIn fun (value, t) hin => ?_).bind fun _ _ => linking_pure trivial
  exact (linking_release (howned _ hin).1 (howned _ hin).2).seq (linking_pure trivial)

/-! ## Operators and aggregates -/

theorem linking_emitCast {value : Operand} (h : L.Allows value) (how : Core.Cast) :
    Linking L (emitCast value how) := by
  have hconvert (how : Ir.Conversion) (bits : Nat) :
      Linking L (build (Build.result (.int bits) (.convert how value (.int bits)))) :=
    linking_result allows_int (allows_convert.mpr ⟨h, allows_int⟩)
  unfold emitCast
  split
  · exact linking_pure h
  · exact .ite (hconvert _ _) (.ite (hconvert _ _) (linking_pure h))

theorem linking_promote {value : Operand} (h : L.Allows value) (t : Ty) : Linking L (promote value t) := by
  have hwiden (how : Ir.Conversion) :
      Linking L (build (Build.result (.int 32) (.convert how value (.int 32)))) :=
    linking_result allows_int (allows_convert.mpr ⟨h, allows_int⟩)
  unfold promote
  split
  · exact .ite (hwiden _) (linking_pure h)
  · exact hwiden _
  · exact linking_pure h

set_option synthInstance.maxSize 100000 in
theorem linking_fillElements {data count value : Operand} {element : Ir.Ty} (hdata : L.Allows data)
    (hcount : L.Allows count) (hvalue : L.Allows value) (helement : L.Allows element) :
    Linking L (fillElements data count value element) := by
  unfold fillElements
  refine (linking_newSlot allows_int).bind fun counter hcounter => ?_
  refine (linking_store (by simp) hcounter).seq ?_
  refine .newLabel fun condition => .newLabel fun body => .newLabel fun done => ?_
  refine (linking_placeLabel allows_numbered).seq ?_
  refine (linking_load allows_int hcounter).bind fun index hindex => ?_
  refine (linking_result allows_int (allows_compare.mpr ⟨hindex, allows_ref hcount⟩)).bind fun more hmore => ?_
  refine (linking_condBr hmore allows_numbered allows_numbered).seq ((linking_placeLabel allows_numbered).seq ?_)
  refine (linking_result allows_ptr (allows_addressOf.mpr ⟨⟨helement, hdata⟩, by simpa using hindex⟩)).bind
    fun address haddress => (linking_store hvalue haddress).seq ?_
  refine (linking_result allows_int (allows_binary.mpr ⟨hindex, allows_intRef⟩)).bind fun next hnext => ?_
  exact (linking_store hnext hcounter).seq ((linking_br allows_numbered).seq (linking_placeLabel allows_numbered))

theorem linking_fillArray {count value : Operand} {element t : Ty} (hcount : L.Allows count)
    (hvalue : L.Allows value) (helement : L.context.Knows element) (ht : L.context.Knows t) (heap : Bool) :
    Linking L (fillArray count value element t heap) := by
  unfold fillArray
  refine (linking_irType helement).bind fun elementType helementType => .ite ?_ ?_
  · refine (linking_byteSize element).bind fun size _ => ?_
    refine (linking_result allows_int (allows_binary.mpr ⟨hcount, allows_intRef⟩)).bind fun bytes hbytes => ?_
    exact (linking_allocate hbytes).bind fun data hdata =>
      (linking_fillElements hdata hcount hvalue helementType).seq (linking_pure hdata)
  · refine (linking_irType ht).bind fun type htype => (linking_newSlot htype).bind fun data hdata => ?_
    exact (linking_fillElements hdata hcount hvalue helementType).seq (linking_load htype hdata)

theorem linking_placeAggregate {aggregate : Operand} (h : L.Allows aggregate) (size : Emit Nat) [Reading size]
    (heap : Bool) : Linking L (placeAggregate aggregate size heap) := by
  unfold placeAggregate
  have hsize : Linking L size := linking_reading fun _ _ => trivial
  exact .ite (hsize.bind fun n _ => linking_heapCopy h n) (linking_pure h)

theorem linking_requireFormat (format : Core.Expr) (values : Nat) (span : Span) :
    Linking L (requireFormat format values span) := linking_reading fun _ _ _ _ => trivial

theorem linking_bothOperands {left right : Emit Operand} [Extending right] {t : Ty}
    {instr : Operand → Ir.Ref → Ir.Instr} (ht : L.context.Knows t) (hleft : Linking L left)
    (hright : Linking L right) (hinstr : ∀ a r, L.Allows a → L.Allows r → L.Allows (instr a r)) :
    Linking L (bothOperands t instr left right) := by
  unfold bothOperands
  exact hleft.bind fun a ha => hright.bind fun b hb => (linking_irType ht).bind fun type htype =>
    linking_result htype (hinstr a b.ref ha (allows_ref hb))

/-- A look at the block that is open. -/
theorem linking_inBlock {f : Emitter → Emit β} [∀ s, Extending (f s)]
    (hf : ∀ s, L.Allows s.builder.currentLabel → Linking L (f s)) : Linking L (get >>= f) :=
  linking_get.bind fun s hs => by
    obtain ⟨g, hg, hallowed⟩ := hs.function
    refine hf s ?_
    rw [Ir.Builder.currentLabel, hg]
    exact (allows_function.mp hallowed).2

theorem linking_shortCircuit {left right : Emit Operand} [Extending right] (decided : Bool)
    (hleft : Linking L left) (hright : Linking L right) : Linking L (shortCircuit decided left right) := by
  unfold shortCircuit
  refine hleft.bind fun a ha => linking_inBlock fun s hfromLeft => ?_
  refine .newLabel fun other => .newLabel fun done => ?_
  have hrest : Linking L (do
      build (Build.placeLabel (.numbered other))
      let b ← right
      let fromRight := (← get).builder.currentLabel
      build (Build.placeLabel (.numbered done))
      build (Build.result (.int 1)
        (.phi (.int 1) [(.bool decided, s.builder.currentLabel), (b.ref, fromRight)]))) := by
    refine (linking_placeLabel allows_numbered).seq (hright.bind fun b hb => ?_)
    refine linking_inBlock fun _ hfromRight => (linking_placeLabel allows_numbered).seq ?_
    exact linking_result allows_int (by simp [hfromLeft, hfromRight, allows_ref hb])
  split
  · exact (linking_condBr ha allows_numbered allows_numbered).seq hrest
  · exact (linking_condBr ha allows_numbered allows_numbered).seq hrest

/-! ## Expressions -/

variable {locals : Array Local}

mutual

theorem linking_emitExpr : (e : Core.Expr) → e.Typed (L.context.envWith locals) → L.context.Knows e →
    Linking L (emitExpr e)
  | .mk kind t constant span, ht, hk => by
    have hkind := linking_emitKind t constant span kind ht hk
    unfold emitExpr
    cases literal? t constant with
    | none => exact hkind
    | some known => exact linking_constantOperand known (Context.knows_expr.mp hk).2

theorem linking_emitKind (t : Ty) (constant : Option Const) (span : Span) : (kind : Core.ExprKind) →
    (Core.Expr.mk kind t constant span).Typed (L.context.envWith locals) →
    L.context.Knows (Core.Expr.mk kind t constant span) → Linking L (emitKind t span kind)
  | .int n, _, hk => by
    unfold emitKind
    exact (linking_irType (Context.knows_expr.mp hk).2).bind fun type htype => linking_pure (by simpa using htype)
  | .bool b, _, _ => by
    unfold emitKind
    exact linking_pure (by simp)
  | .str text, _, _ => by
    unfold emitKind
    exact linking_string text
  | .load place, ht, hk => by
    have hplace : L.context.Knows place := (Context.knows_expr.mp hk).1
    have htyped : place.Typed (L.context.envWith locals) := by
      cases ht
      assumption
    unfold emitKind
    exact (linking_emitPlace place htyped hplace).bind fun address haddress =>
      (linking_irType hplace.placeType).bind fun type htype => linking_load htype haddress
  | .function id, ht, _ => by
    have hid : L.context.Supplies id := by
      cases ht with
      | function hid => exact Linkage.supplies hid
    unfold emitKind
    exact (linking_symbolOf hid).bind fun _ hr => linking_pure (by simpa using hr)
  | .call callee args, ht, hk => by
    obtain ⟨hcallee, hargs⟩ := Context.knows_call.mp (Context.knows_expr.mp hk).1
    have htyped : callee.Typed (L.context.envWith locals) ∧ ∀ arg ∈ args, arg.Typed (L.context.envWith locals) := by
      cases ht with
      | call hcallee _ hargs => exact ⟨hcallee, hargs⟩
    unfold emitKind
    split
    · rename_i params variadic returns hshape
      obtain ⟨hparams, hreturns⟩ : L.context.Knows params ∧ L.context.Knows returns :=
        Context.knows_func.mp (hshape ▸ Context.knows_shape.mpr hcallee.type)
      refine (linking_emitExpr callee htyped.1 hcallee).bind fun target htarget => ?_
      refine (linking_emitArguments _ args htyped.2 hargs).bind fun values hvalues => ?_
      refine linking_inContext ?_
      refine linking_call (allows_irType hreturns) (allows_ref htarget) hvalues ?_
      split
      · exact allows_some.mpr (allows_func.mpr ⟨allows_irType hreturns, allows_irTypes hparams⟩)
      · exact allows_none
    · exact linking_reject _ _
  | .macroCall id args, ht, hk => by
    have hargs := Context.knows_macroCall.mp (Context.knows_expr.mp hk).1
    have htyped : ∀ arg ∈ args, arg.Typed (L.context.envWith locals) := by
      cases ht
      assumption
    have hgrowing : Growing (fun _ => False) _ (emitKind t span (.macroCall id args)) := growing_emitKind t span _
    have hext := hgrowing.extending
    unfold emitKind at hext ⊢
    refine linking_inContext ?_
    dsimp only
    split
    · exact linking_reject _ _
    · exact linking_emitMacro _ span args htyped hargs
  | .binary op left right, ht, hk => by
    obtain ⟨hleft, hright⟩ := Context.knows_binary.mp (Context.knows_expr.mp hk).1
    have htyped : left.Typed (L.context.envWith locals) ∧ right.Typed (L.context.envWith locals) := by
      cases ht <;> exact ⟨by assumption, by assumption⟩
    have hleft := linking_emitExpr left htyped.1 hleft
    have hright := linking_emitExpr right htyped.2 hright
    have ht := (Context.knows_expr.mp hk).2
    unfold emitKind
    split
    · exact linking_bothOperands ht hleft hright fun _ _ ha hr => allows_binary.mpr ⟨ha, hr⟩
    · exact linking_bothOperands ht hleft hright fun _ _ ha hr => allows_compare.mpr ⟨ha, hr⟩
    · exact linking_shortCircuit _ hleft hright
  | .unary op operand, ht, hk => by
    have htyped : operand.Typed (L.context.envWith locals) := by
      cases ht <;> assumption
    unfold emitKind
    refine (linking_emitExpr operand htyped (Context.knows_expr.mp hk).1).bind fun value hvalue => ?_
    refine linking_result (allows_type hvalue) ?_
    cases op with
    | neg => exact allows_binary.mpr ⟨allows_operand.mpr ⟨allows_type hvalue, allows_intRef⟩, allows_ref hvalue⟩
    | not => exact allows_binary.mpr ⟨hvalue, allows_boolRef⟩
  | .address place, ht, hk => by
    have htyped : place.Typed (L.context.envWith locals) := by
      cases ht
      assumption
    unfold emitKind
    exact linking_emitPlace place htyped (Context.knows_expr.mp hk).1
  | .cast value how, ht, hk => by
    have htyped : value.Typed (L.context.envWith locals) := by
      cases ht <;> assumption
    unfold emitKind
    exact (linking_emitExpr value htyped (Context.knows_expr.mp hk).1).bind fun _ hv => linking_emitCast hv how
  | .extract base index, ht, hk => by
    have htyped : base.Typed (L.context.envWith locals) := by
      cases ht
      assumption
    unfold emitKind
    exact (linking_emitExpr base htyped (Context.knows_expr.mp hk).1).bind fun aggregate haggregate =>
      (linking_irType (Context.knows_expr.mp hk).2).bind fun type htype => linking_extract htype haggregate index
  | .structInit id values heap, ht, hk => by
    obtain ⟨hid, hvalues⟩ := Context.knows_structInit.mp (Context.knows_expr.mp hk).1
    have htyped : ∀ value ∈ values, value.Typed (L.context.envWith locals) := by
      cases ht
      assumption
    have hgrowing : Growing (fun _ => False) _ (emitKind t span (.structInit id values heap)) :=
      growing_emitKind t span _
    have hext := hgrowing.extending
    unfold emitKind at hext ⊢
    refine linking_inContext ?_
    have : Growing (fun _ => False) 0 (do byteSize ((← context).structType id)) := .cast inferInstance rfl
    have hzero : L.Allows (⟨.struct (L.context.struct id).symbol, .zero⟩ : Operand) :=
      allows_operand.mpr ⟨allows_structType hid, allows_zero⟩
    exact (linking_emitAggregate hzero 0 values htyped hvalues).bind fun aggregate haggregate =>
      linking_placeAggregate haggregate _ heap
  | .arrayInit element values heap, ht, hk => by
    obtain ⟨helement, hvalues⟩ := Context.knows_arrayInit.mp (Context.knows_expr.mp hk).1
    have htyped : ∀ value ∈ values, value.Typed (L.context.envWith locals) := by
      cases ht
      assumption
    unfold emitKind
    refine (linking_irType helement).bind fun type htype => ?_
    have hzero : L.Allows (⟨.array values.length type, .zero⟩ : Operand) := by simpa using htype
    exact (linking_emitAggregate hzero 0 values htyped hvalues).bind fun aggregate haggregate =>
      linking_placeAggregate haggregate _ heap
  | .arrayFill element size value heap, ht, hk => by
    obtain ⟨helement, hsize, hvalue⟩ := Context.knows_arrayFill.mp (Context.knows_expr.mp hk).1
    have htyped : size.Typed (L.context.envWith locals) ∧ value.Typed (L.context.envWith locals) := by
      cases ht
      exact ⟨by assumption, by assumption⟩
    unfold emitKind
    exact (linking_emitExpr size htyped.1 hsize).bind fun count hcount =>
      (linking_emitExpr value htyped.2 hvalue).bind fun content hcontent =>
        linking_fillArray hcount hcontent helement (Context.knows_expr.mp hk).2 heap
  | .new value, ht, hk => by
    have htyped : value.Typed (L.context.envWith locals) := by
      cases ht
      assumption
    unfold emitKind
    exact (linking_byteSize _).bind fun size _ =>
      (linking_emitExpr value htyped (Context.knows_expr.mp hk).1).bind fun _ hv => linking_heapCopy hv size

theorem linking_emitMacro (intrinsic : Intrinsic) (span : Span) : (args : List Core.Expr) →
    (∀ arg ∈ args, arg.Typed (L.context.envWith locals)) → L.context.Knows args →
    Linking L (emitMacro intrinsic span args)
  | [], _, _ => linking_reject _ _
  | format :: values, ht, hk => by
    unfold emitMacro
    refine (linking_requireFormat format _ span).bind fun pieces _ => ?_
    refine (linking_emitPieces pieces values (fun v hv => ht v (List.mem_cons_of_mem _ hv))
      (Context.knows_cons.mp hk).2).bind fun (rendering, owned) h => ?_
    exact (linking_printValues _ h.1 h.2).seq (linking_pure allows_operandVoid)

theorem linking_emitArguments (fixed : Nat) : (args : List Core.Expr) →
    (∀ arg ∈ args, arg.Typed (L.context.envWith locals)) → L.context.Knows args →
    Linking L (emitArguments fixed args)
  | [], _, _ => by
    unfold emitArguments
    exact linking_pure allows_nil
  | arg :: rest, ht, hk => by
    obtain ⟨harg, hrest⟩ := Context.knows_cons.mp hk
    have hmore := linking_emitArguments (fixed - 1) rest (fun a ha => ht a (List.mem_cons_of_mem _ ha)) hrest
    have hlast (passed : Operand) (hpassed : L.Allows passed) :
        Linking L (do return passed :: (← emitArguments (fixed - 1) rest)) :=
      hmore.bind fun values hvalues => linking_pure (allows_cons.mpr ⟨hpassed, hvalues⟩)
    unfold emitArguments
    refine (linking_emitExpr arg (ht arg List.mem_cons_self) harg).bind fun value hvalue => ?_
    split
    · exact (linking_promote hvalue arg.type).bind hlast
    · exact (linking_pure hvalue).bind hlast

theorem linking_emitAggregate {aggregate : Operand} (h : L.Allows aggregate) (index : Nat) :
    (values : List Core.Expr) → (∀ value ∈ values, value.Typed (L.context.envWith locals)) →
    L.context.Knows values → Linking L (emitAggregate aggregate index values)
  | [], _, _ => by
    unfold emitAggregate
    exact linking_pure h
  | part :: rest, ht, hk => by
    obtain ⟨hpart, hrest⟩ := Context.knows_cons.mp hk
    unfold emitAggregate
    refine (linking_emitExpr part (ht part List.mem_cons_self) hpart).bind fun value hvalue => ?_
    refine (linking_result (allows_type h) (allows_insert.mpr ⟨h, hvalue⟩)).bind fun next hnext => ?_
    exact linking_emitAggregate hnext (index + 1) rest (fun v hv => ht v (List.mem_cons_of_mem _ hv)) hrest

theorem linking_emitPieces (pieces : List String) : (values : List Core.Expr) →
    (∀ value ∈ values, value.Typed (L.context.envWith locals)) → L.context.Knows values →
    Linking L (emitPieces pieces values)
  | [], _, _ => by
    unfold emitPieces
    exact linking_pure ⟨allows_plain, allows_nil⟩
  | value :: rest, ht, hk => by
    obtain ⟨hvalue, hrest⟩ := Context.knows_cons.mp hk
    unfold emitPieces
    refine (linking_emitExpr value (ht value List.mem_cons_self) hvalue).bind fun operand hoperand => ?_
    refine (linking_render hoperand hvalue.type value.span).bind fun shown hshown => ?_
    refine (linking_emitPieces pieces.tail rest (fun v hv => ht v (List.mem_cons_of_mem _ hv)) hrest).bind
      fun (after, owned) h => ?_
    refine linking_pure ⟨allows_appended (allows_appended allows_plain hshown) h.1, ?_⟩
    refine allows_append.mpr ⟨?_, h.2⟩
    split
    · exact allows_nil
    · exact allows_cons.mpr ⟨⟨hoperand, hvalue.type⟩, allows_nil⟩

theorem linking_emitPlace : (place : Core.Place) → place.Typed (L.context.envWith locals) →
    L.context.Knows place → Linking L (emitPlace place)
  | .mk kind t constant span, ht, hk => by
    unfold emitPlace
    exact linking_emitPlaceKind t constant span kind ht hk

theorem linking_emitPlaceKind (t : Ty) (constant : Bool) (span : Span) : (kind : Core.PlaceKind) →
    (Core.Place.mk kind t constant span).Typed (L.context.envWith locals) →
    L.context.Knows (Core.Place.mk kind t constant span) → Linking L (emitPlaceKind t kind)
  | .slot id, _, _ => by
    unfold emitPlaceKind
    exact (linking_slot id).bind fun _ hslot => linking_pure hslot.1
  | .global id, ht, _ => by
    have hid : L.context.Supplies id := by
      cases ht with
      | global hid => exact Linkage.supplies hid
    unfold emitPlaceKind
    exact (linking_symbolOf hid).bind fun _ hr => linking_pure (by simpa using hr)
  | .deref pointer, ht, hk => by
    have htyped : pointer.Typed (L.context.envWith locals) := by
      cases ht
      assumption
    unfold emitPlaceKind
    exact linking_emitExpr pointer htyped (Context.knows_place.mp hk).1
  | .field base id index, ht, hk => by
    obtain ⟨hid, hbase⟩ := Context.knows_field.mp (Context.knows_place.mp hk).1
    have htyped : base.Typed (L.context.envWith locals) := by
      cases ht
      assumption
    unfold emitPlaceKind
    refine (linking_emitExpr base htyped hbase).bind fun pointer hpointer => linking_inContext ?_
    exact linking_result allows_ptr (allows_addressOf.mpr ⟨⟨allows_structType hid, hpointer⟩, by simp⟩)
  | .element data index, ht, hk => by
    obtain ⟨hdata, hindex⟩ := Context.knows_element.mp (Context.knows_place.mp hk).1
    have htyped : data.Typed (L.context.envWith locals) ∧ index.Typed (L.context.envWith locals) := by
      cases ht
      exact ⟨by assumption, by assumption⟩
    unfold emitPlaceKind
    refine (linking_emitExpr data htyped.1 hdata).bind fun pointer hpointer => ?_
    refine (linking_emitExpr index htyped.2 hindex).bind fun position hposition => ?_
    refine (linking_irType (Context.knows_place.mp hk).2).bind fun type htype => ?_
    exact linking_result allows_ptr (allows_addressOf.mpr ⟨⟨htype, hpointer⟩, by simpa using hposition⟩)

end

end Emit

end OwnLang
