import Mathlib
import OwnLang.Proofs.Check.Elaborate
import OwnLang.Proofs.Check.Folding

/-!
# The typing of checked expressions

What is checked of expressions and locations satisfies the typing rules, with one lemma for each part
of checking. Where a part asks for several values, each is typed in the context that it leaves, and
it stays typed in those behind it.
-/

namespace OwnLang.Check

open OwnLang.Core (TypeEnv)

variable {Γ : TypeEnv}

/-! ## Literals and conversions -/

theorem typed_literal {n : Int} {t : Ty} {width : Width} {span : Span} {e : Core.Expr}
    (ht : t.shape = .int width) (h : Core.Expr.literal n t width span = .ok e) :
    e.Typed Γ ∧ e.type = t := by
  unfold Core.Expr.literal at h
  split at h
  · rename_i hfits
    cases h
    exact ⟨.int ht hfits, rfl⟩
  · cases h

/-- What is converted to a type has that type. -/
theorem type_coerce {e e' : Core.Expr} {t : Ty} (h : e.coerce t = .ok e') : e'.type.same t := by
  unfold Core.Expr.coerce at h
  by_cases hsame : e.type.same t
  · rw [if_pos hsame] at h
    cases h
    exact hsame
  · rw [if_neg hsame] at h
    split at h
    case h_1 =>
      unfold Core.Expr.literal at h
      split at h
      · cases h
        exact Ty.same_refl _
      · cases h
    case h_2 =>
      cases h
      exact Ty.same_refl _
    case h_3 =>
      cases h
      exact Ty.same_refl _
    case h_4 => cases h

theorem typed_coerce {e e' : Core.Expr} {t : Ty} (he : e.Typed Γ) (h : e.coerce t = .ok e') :
    e'.Typed Γ ∧ e'.type.same t := by
  refine ⟨?_, type_coerce h⟩
  unfold Core.Expr.coerce at h
  by_cases hsame : e.type.same t
  · rw [if_pos hsame] at h
    cases h
    exact he
  · rw [if_neg hsame] at h
    split at h
    case h_1 hcast _ => exact (typed_literal (Core.Cast.between?_int hcast).2 h).1
    case h_2 source target hcast _ =>
      cases h
      obtain ⟨hsource, htarget⟩ := Core.Cast.between?_int hcast
      refine .castInt he hsource htarget fun hwidths => hsame ?_
      rw [Ty.same_shape, hsource, htarget, hwidths]
      simp [Shape.same]
    case h_3 hcast =>
      cases h
      exact .castPointer he (Core.Cast.between?_views hcast)
    case h_4 => cases h

theorem shape_of_same_bool {t : Ty} (h : t.same Shape.bool.plain) : t.shape = .bool := by
  apply Shape.same_bool
  rw [← show Shape.bool.plain.shape = .bool from rfl, ← Ty.same_shape]
  exact h

theorem shape_of_same_int {t u : Ty} {width : Width} (h : t.same u) (hu : u.shape = .int width) :
    t.shape = .int width := by
  apply Shape.same_int
  rw [← hu, ← Ty.same_shape]
  exact h

variable {c d : Context} {scope : Scope}

theorem typed_numberLiteral {n : Int} {expected : Option Ty} {span : Span} {e : Core.Expr}
    (h : numberLiteral n expected span c = .ok e d) : e.Typed Γ := by
  obtain ⟨hliteral, -⟩ := Run.ofExcept_eq_ok.mp h
  obtain ⟨width, hshape⟩ := intHint_shape expected
  rw [hshape] at hliteral
  exact (typed_literal hshape hliteral).1

/-! ## Operators -/

variable {ask : Asker}

section

variable (he : Elaborates ask)

include he

theorem typed_unaryValue {op : Surface.UnaryOp} {operand : Surface.Expr} {expected : Option Ty}
    {span : Span} {e : Core.Expr} (hc : Ready c)
    (h : unaryValue ask op operand expected span scope c = .ok e d) : e.Typed d.typeEnv := by
  have hgeneral (hint : Option Ty) (h : (do
      let value ← ask (.value operand hint scope)
      let constant ← foldUnary op value span
      return .mk (.unary op value) value.type constant span : Check Core.Expr) c = .ok e d) :
      e.Typed d.typeEnv := by
    obtain ⟨value, c₁, hvalue, hfold⟩ := Run.bind_eq_ok.mp h
    obtain ⟨constant, c₂, hconstant, hreturn⟩ := Run.bind_eq_ok.mp hfold
    cases hreturn
    obtain rfl : d = c₁ :=
      preserves_foldUnary (P := (· = c₁)) op value span (Run.ends_of_ok hconstant) rfl
    obtain ⟨-, htyped, -⟩ := he.value hc hvalue
    obtain ⟨rfl, width, hshape, -⟩ | ⟨rfl, hshape, -⟩ := foldUnary_eq_ok hconstant
    · exact .neg htyped hshape
    · exact .not htyped hshape
  unfold unaryValue at h
  cases op with
  | neg =>
    cases hkind : operand.kind with
    | number n =>
      simp only [hkind] at h
      exact typed_numberLiteral h
    | _ =>
      simp only [hkind] at h
      exact hgeneral _ h
  | not => exact hgeneral _ h

theorem typed_logicalValue {op : Surface.BinaryOp} {left right : Surface.Expr} {span : Span}
    {e : Core.Expr} (hop : op.isLogical) (hc : Ready c)
    (h : logicalValue ask op left right span scope c = .ok e d) : e.Typed d.typeEnv := by
  obtain ⟨a, c₁, hleft, hrest⟩ := Run.bind_eq_ok.mp h
  obtain ⟨b, c₂, hright, hreturn⟩ := Run.bind_eq_ok.mp hrest
  cases hreturn
  obtain ⟨hc₁, ha, hatype⟩ := he.valueOf hc hleft
  obtain ⟨hd, hb, hbtype⟩ := he.valueOf hc₁.ready hright
  exact .logical hop (ha.mono hd.grows) hb rfl (shape_of_same_bool hatype)
    (shape_of_same_bool hbtype)

/-- The operands of an operator have one type. -/
theorem typed_operandValues {left right : Surface.Expr} {hint : Option Ty} {a b : Core.Expr}
    (hc : Ready c) (h : operandValues ask left right hint scope c = .ok (a, b) d) :
    a.Typed d.typeEnv ∧ b.Typed d.typeEnv ∧ b.type.same a.type := by
  unfold operandValues at h
  split at h
  · obtain ⟨b', c₁, hright, hrest⟩ := Run.bind_eq_ok.mp h
    obtain ⟨a', c₂, hleft, hrest⟩ := Run.bind_eq_ok.mp hrest
    obtain ⟨b'', c₃, hcoerce, hreturn⟩ := Run.bind_eq_ok.mp hrest
    obtain ⟨hconverted, rfl⟩ := Run.ofExcept_eq_ok.mp hcoerce
    cases hreturn
    obtain ⟨hc₁, hb, -⟩ := he.value hc hright
    obtain ⟨hd, ha, -⟩ := he.value hc₁.ready hleft
    obtain ⟨hb', hsame⟩ := typed_coerce (hb.mono hd.grows) hconverted
    exact ⟨ha, hb', hsame⟩
  · obtain ⟨a', c₁, hleft, hrest⟩ := Run.bind_eq_ok.mp h
    obtain ⟨b', c₂, hright, hreturn⟩ := Run.bind_eq_ok.mp hrest
    cases hreturn
    obtain ⟨hc₁, ha, -⟩ := he.value hc hleft
    obtain ⟨hd, hb, hsame⟩ := he.valueOf hc₁.ready hright
    exact ⟨ha.mono hd.grows, hb, hsame⟩

omit he in
/-- An operator takes integers, or is one of those that tell values apart. -/
theorem operatorTakes_cases {op : Surface.BinaryOp} {shape : Shape} (h : operatorTakes op shape) :
    Core.Comparable op shape ∧ (op.isComparison = false → ∃ width, shape = .int width) := by
  cases shape with
  | int width => exact ⟨trivial, fun _ => ⟨width, rfl⟩⟩
  | _ =>
    cases op <;>
      simp_all [operatorTakes, Core.Comparable, Shape.isInt, Shape.width?,
        Surface.BinaryOp.isComparison]

theorem typed_binaryValue {op : Surface.BinaryOp} {left right : Surface.Expr}
    {expected : Option Ty} {span : Span} {e : Core.Expr} (hop : op.isLogical = false) (hc : Ready c)
    (h : binaryValue ask op left right expected span scope c = .ok e d) : e.Typed d.typeEnv := by
  unfold binaryValue at h
  obtain ⟨⟨a, b⟩, c₁, hoperands, hrest⟩ := Run.bind_eq_ok.mp h
  obtain ⟨ha, hb, hsame⟩ := typed_operandValues he hc hoperands
  dsimp only at hrest
  split at hrest
  · cases hrest
  · rename_i htakes
    obtain ⟨_, c₂, hfit, hreturn⟩ := Run.bind_eq_ok.mp hrest
    cases hreturn
    obtain rfl : d = c₁ :=
      preserves_requireFit (P := (· = c₁)) _ _ _ (Run.ends_of_ok hfit) rfl
    obtain ⟨hcomparable, hint⟩ := operatorTakes_cases (by simpa using htakes)
    cases hcomparison : op.isComparison with
    | true =>
      rw [if_pos rfl]
      exact .comparison hcomparison ha hb rfl hsame hcomparable
    | false =>
      rw [if_neg Bool.false_ne_true]
      obtain ⟨width, hwidth⟩ := hint hcomparison
      refine .arithmetic ?_ ha hb hwidth hwidth (shape_of_same_int hsame hwidth)
      simp [Surface.BinaryOp.isArithmetic, hcomparison, hop]

end

/-! ## Variables -/

theorem typed_readPlace {place : Core.Place} {e : Core.Expr} (hplace : place.Typed Γ)
    (h : readPlace place c = .ok e d) : e.Typed Γ := by
  obtain ⟨rfl, -⟩ := readPlace_eq_ok h
  exact .load hplace

theorem typed_readDenoted {denoted : Denoted} {e : Core.Expr} (hdenoted : denoted.Typed Γ)
    (h : readDenoted denoted c = .ok e d) : e.Typed Γ := by
  cases denoted with
  | value v =>
    cases h
    exact hdenoted
  | place place => exact typed_readPlace hdenoted h

/-- The type of a local is known. -/
theorem typeEnv_slot {id : LocalId} (h : id.index < c.here.locals.size) :
    c.typeEnv.slot id = some (slotOf c id).type := by
  show (c.here.locals[id.index]?).map (·.type) = some (c.here.localAt id).type
  unfold Frame.localAt
  rw [Array.getElem?_eq_getElem h]
  rfl

theorem typed_slot {id : LocalId} (h : id.index < c.here.locals.size) (constant : Bool)
    (span : Span) : (Core.Place.mk (.slot id) (slotOf c id).type constant span).Typed c.typeEnv :=
  .slot (typeEnv_slot h)

theorem typed_globalDenoted (he : Elaborates ask) {id : GlobalId} {span : Span} {denoted : Denoted}
    (hc : Ready c) (h : globalDenoted ask id span c = .ok denoted d) : denoted.Typed d.typeEnv := by
  unfold globalDenoted at h
  obtain ⟨t, c₁, hglobal, hrest⟩ := Run.bind_eq_ok.mp h
  obtain ⟨_, _, hget, hreturn⟩ := Run.bind_eq_ok.mp hrest
  cases hget
  obtain ⟨-, ht⟩ := he.answer hc rfl hglobal
  split at hreturn
  · cases hreturn
    exact .function ht
  · cases hreturn
    exact .global ht

/-! ## Fields -/

/-- The field of a complete struct. -/
theorem fieldAt_eq_ok {id : StructId} {index : Nat} {field : Field}
    (hstate : (c.struct id).state = .complete) (hindex : index < (c.struct id).fields.length)
    (h : fieldAt id index c = .ok field d) :
    d = c ∧ ∃ ts, c.typeEnv.fields id = some ts ∧ ts[index]? = some field.type := by
  unfold fieldAt at h
  obtain ⟨_, _, hget, hreturn⟩ := Run.bind_eq_ok.mp h
  cases hget
  cases hreturn
  refine ⟨rfl, _, Context.fieldTypes?_of_complete hstate, ?_⟩
  rw [List.getElem?_map, List.getElem?_eq_getElem hindex]
  rfl

/-- What a path can stand for: a local that is declared, or a field of `this`. -/
def RefScoped (c : Context) : Referent → Prop
  | .slot id => id.index < c.here.locals.size
  | .global _ => True
  | .field this id index =>
    c.here.receiver = some (this, id) ∧ index < (c.struct id).fields.length

/-- A struct that has fields is complete. -/
theorem Ready.complete (hc : Ready c) {id : StructId} {index : Nat}
    (h : index < (c.struct id).fields.length) : (c.struct id).state = .complete := by
  by_contra hstate
  rw [(hc.wellTyped.structs id).fields hstate] at h
  simp at h

theorem typed_ownFieldPlace {this : LocalId} {id : StructId} {index : Nat} {span : Span}
    {place : Core.Place} (hc : Ready c) (href : RefScoped c (.field this id index))
    (h : ownFieldPlace this id index span c = .ok place d) : place.Typed d.typeEnv := by
  obtain ⟨hreceiver, hindex⟩ := href
  obtain ⟨hthis, target, constant, htarget, hid⟩ := hc.visible.receiver this id hreceiver
  unfold ownFieldPlace at h
  obtain ⟨f, c₁, hframe, hrest⟩ := Run.bind_eq_ok.mp h
  cases hframe
  obtain ⟨field, c₂, hfield, hreturn⟩ := Run.bind_eq_ok.mp hrest
  obtain ⟨rfl, ts, hts, ht⟩ := fieldAt_eq_ok (hc.complete hindex) hindex hfield
  cases hreturn
  exact .field (.load (typed_slot hthis _ _)) htarget hid hts ht

/-! ## Paths -/

theorem scoped_innerReferent? {name : String} {referent : Referent} (hc : Ready c)
    (h : innerReferent? c name = some referent) : RefScoped c referent := by
  unfold innerReferent? at h
  cases hframe : c.frame with
  | none => simp [hframe] at h
  | some f =>
    have hhere : c.here = f := by
      unfold Context.here
      rw [hframe]
      rfl
    simp only [hframe] at h
    cases hlookup : f.lookup name with
    | some id =>
      simp only [hlookup] at h
      cases h
      show id.index < c.here.locals.size
      rw [hhere]
      exact (hhere ▸ hc.visible).lookup_lt hlookup
    | none =>
      cases hreceiver : f.receiver with
      | none => simp [hlookup, hreceiver] at h
      | some receiver =>
        obtain ⟨this, id⟩ := receiver
        simp only [hlookup, hreceiver] at h
        obtain ⟨index, hindex, rfl⟩ := Option.map_eq_some_iff.mp h
        refine ⟨hhere ▸ hreceiver, ?_⟩
        exact (List.findIdx?_eq_some_iff_findIdx_eq.mp hindex).1

/-- What a path stands for that does not name a local or a field of `this`. -/
abbrev IsGlobal (referent : Referent) : Prop := ∃ id, referent = .global id

theorem memberReferent_global (path : List Surface.Ident) (member : Option Member) :
    (memberReferent path member).Returns IsGlobal := by
  unfold memberReferent
  split
  · exact Run.returns_pure ⟨_, rfl⟩
  · exact Run.returns_reject _ _
  · exact Run.returns_reject _ _

theorem memberOfStruct_global (path : List Surface.Ident) (member : Surface.Ident) (scope : Scope) :
    (memberOfStruct ask path member scope).Returns IsGlobal := by
  refine Run.returns_bind fun id => Run.returns_bind fun _ => Run.returns_bind fun c => ?_
  dsimp only
  split
  · exact Run.returns_pure ⟨_, rfl⟩
  · exact Run.returns_reject _ _

theorem templateReferent_global (path : List Surface.Ident) (args : List Surface.TypeExpr)
    (scope : Scope) : (templateReferent ask path args scope).Returns IsGlobal := by
  refine Run.returns_bind fun c => Run.returns_bind fun member => ?_
  split
  · refine Run.returns_bind fun types => Run.returns_bind fun entity => ?_
    split
    · exact Run.returns_pure ⟨_, rfl⟩
    · exact Run.returns_reject _ _
  · exact Run.returns_reject _ _
  · exact Run.returns_reject _ _

theorem plainReferent_eq_ok {path : List Surface.Ident} {referent : Referent}
    (h : plainReferent ask path scope c = .ok referent d) :
    IsGlobal referent ∨ d = c ∧ ∃ name, innerReferent? c name = some referent := by
  unfold plainReferent at h
  obtain ⟨_, _, hget, hrest⟩ := Run.bind_eq_ok.mp h
  cases hget
  replace hrest : Gives _ c referent d := hrest
  split at hrest
  · split at hrest
    · rename_i hinner
      cases hrest
      exact .inr ⟨rfl, _, hinner⟩
    · exact .inl (memberReferent_global _ _ hrest)
  · split at hrest
    · exact .inl (memberReferent_global _ _ hrest)
    · exact .inl (memberOfStruct_global _ _ _ hrest)
  · exact .inl (memberOfStruct_global _ _ _ hrest)
  · exact .inl (memberReferent_global _ _ hrest)

theorem scoped_resolvePath {path : List Surface.Ident} {args : List Surface.TypeExpr}
    {referent : Referent} (hc : Ready c)
    (h : resolvePath ask path args scope c = .ok referent d) : RefScoped d referent := by
  unfold resolvePath at h
  split at h
  · obtain ⟨id, rfl⟩ | ⟨rfl, name, hinner⟩ := plainReferent_eq_ok h
    · trivial
    · exact scoped_innerReferent? hc hinner
  · obtain ⟨id, rfl⟩ := templateReferent_global _ _ _ h
    trivial

section

variable (he : Elaborates ask)

include he

theorem typed_pathDenoted {path : List Surface.Ident} {args : List Surface.TypeExpr} {write : Bool}
    {span : Span} {denoted : Denoted} (hc : Ready c)
    (h : pathDenoted ask path args write span scope c = .ok denoted d) :
    denoted.Typed d.typeEnv := by
  unfold pathDenoted at h
  obtain ⟨referent, c₁, hpath, hrest⟩ := Run.bind_eq_ok.mp h
  have hc₁ := he.evaluated hc hpath fun _ hP => preserves_resolvePath hP _ _ _
  have href := scoped_resolvePath hc hpath
  cases referent with
  | slot id =>
    obtain ⟨place, c₂, hslot, hreturn⟩ := Run.bind_eq_ok.mp hrest
    cases hreturn
    obtain ⟨rfl, rfl⟩ := slotPlace_eq_ok hslot
    exact typed_slot href _ _
  | global id => exact typed_globalDenoted he hc₁.ready hrest
  | field this id index =>
    obtain ⟨place, c₂, hfield, hreturn⟩ := Run.bind_eq_ok.mp hrest
    cases hreturn
    exact typed_ownFieldPlace hc₁.ready href hfield

/-! ## Pointers and elements -/

theorem typed_pointeePlace {pointer : Surface.Expr} {span : Span} {place : Core.Place}
    (hc : Ready c) (h : pointeePlace ask pointer span scope c = .ok place d) :
    place.Typed d.typeEnv := by
  unfold pointeePlace at h
  obtain ⟨value, c₁, hvalue, hrest⟩ := Run.bind_eq_ok.mp h
  obtain ⟨hc₁, htyped, -⟩ := he.value hc hvalue
  replace hrest : Gives _ c₁ place d := hrest
  split at hrest
  · cases hrest
  · rename_i target constant hpointee
    split at hrest
    · cases hrest
    · rename_i hunsized
      obtain ⟨_, c₂, hcomplete, hreturn⟩ := Run.bind_eq_ok.mp hrest
      cases hreturn
      have hvalue := htyped.mono (he.complete hc₁.ready hcomplete).grows
      exact .deref hvalue hpointee (by simpa using hunsized)

omit he in
/-- The elements behind a pointer to an array. -/
theorem typed_elementsBehind {value : Core.Expr} {span : Span} {elements : Elements} {target : Ty}
    {constant : Bool} (hpointee : value.type.shape.pointee? = some (target, constant))
    (h : Gives (match target.shape with
      | .array element arrayConstant _ =>
        (return ⟨value, element, constant || arrayConstant⟩ : Check Elements)
      | _ => Run.reject (.notIndexable value.type.describe) span) c elements d) :
    d = c ∧ elements.data = value ∧ Core.PointsAtElements value.type.shape elements.element := by
  split at h
  · rename_i element arrayConstant size hshape
    cases h
    exact ⟨rfl, rfl, .inr ⟨target, constant, arrayConstant, size, hpointee, hshape⟩⟩
  · cases h

omit he in
theorem typed_elementsOf {value : Core.Expr} {span : Span} {elements : Elements}
    (h : elementsOf value span c = .ok elements d) :
    d = c ∧ elements.data = value ∧ Core.PointsAtElements value.type.shape elements.element := by
  replace h : Gives _ c elements d := h
  unfold elementsOf at h
  dsimp only at h
  split at h
  · rename_i element constant hshape
    cases h
    exact ⟨rfl, rfl, .inl ⟨constant, hshape⟩⟩
  · cases h
  · rename_i hshape
    exact typed_elementsBehind (by rw [hshape]; rfl) h
  · rename_i hshape
    exact typed_elementsBehind (by rw [hshape]; rfl) h
  · cases h

omit he in
theorem typed_elementsDenoted {denoted : Denoted} {baseSpan span : Span} {elements : Elements}
    (hdenoted : denoted.Typed Γ) (h : elementsDenoted denoted baseSpan span c = .ok elements d) :
    d = c ∧ elements.data.Typed Γ ∧
      Core.PointsAtElements elements.data.type.shape elements.element := by
  have hof {value : Core.Expr} (hvalue : value.Typed Γ)
      (h : elementsOf value baseSpan c = .ok elements d) : d = c ∧ elements.data.Typed Γ ∧
        Core.PointsAtElements elements.data.type.shape elements.element := by
    obtain ⟨rfl, hdata, hpoints⟩ := typed_elementsOf h
    rw [hdata]
    exact ⟨rfl, hvalue, hpoints⟩
  cases denoted with
  | value value => exact hof hdenoted h
  | place place =>
    replace h : Gives _ c elements d := h
    unfold elementsDenoted at h
    dsimp only at h
    split at h
    · rename_i element arrayConstant size hshape
      cases h
      exact ⟨rfl, .address hdenoted rfl, .inr ⟨place.type, _, arrayConstant, _, rfl, hshape⟩⟩
    · obtain ⟨value, c₁, hread, hrest⟩ := Run.bind_eq_ok.mp h
      have hvalue := typed_readPlace hdenoted hread
      obtain ⟨rfl, rfl⟩ := readPlace_eq_ok hread
      exact hof hvalue hrest

theorem typed_elementPlace {base index : Surface.Expr} {span : Span} {place : Core.Place}
    (hc : Ready c) (h : elementPlace ask base index span scope c = .ok place d) :
    place.Typed d.typeEnv := by
  unfold elementPlace at h
  obtain ⟨denoted, c₁, hdenoted, hrest⟩ := Run.bind_eq_ok.mp h
  obtain ⟨elements, c₂, helements, hrest⟩ := Run.bind_eq_ok.mp hrest
  obtain ⟨position, c₃, hposition, hreturn⟩ := Run.bind_eq_ok.mp hrest
  cases hreturn
  obtain ⟨hc₁, hbase⟩ := he.answer hc rfl hdenoted
  obtain ⟨rfl, hdata, hpoints⟩ := typed_elementsDenoted hbase helements
  obtain ⟨hd, hindex, htype⟩ := he.valueOf hc₁.ready hposition
  exact .element (hdata.mono hd.grows) hindex hpoints (shape_of_same_int htype rfl)

/-! ## Members -/

omit he in
/-- The struct that a member is looked up on is pointed at by a value, or is the value. -/
def Receiver.Typed (Γ : TypeEnv) (id : StructId) : Receiver → Prop
  | .pointer value _ => value.Typed Γ ∧ ∃ target constant,
      value.type.shape.pointee? = some (target, constant) ∧ target.shape.struct? = some id
  | .temporary value => value.Typed Γ ∧ value.type.shape.struct? = some id

omit he in
theorem Receiver.Typed.mono {Δ : TypeEnv} {id : StructId} {receiver : Receiver}
    (h : receiver.Typed Γ id) (hΔ : Γ.Extends Δ) : receiver.Typed Δ id := by
  cases receiver with
  | pointer value constant => exact ⟨h.1.mono hΔ, h.2⟩
  | temporary value => exact ⟨h.1.mono hΔ, h.2⟩

omit he in
theorem typed_receiverOfValue {value : Core.Expr} {span : Span} {id : StructId}
    {receiver : Receiver} (hvalue : value.Typed Γ)
    (h : receiverOfValue value span c = .ok (id, receiver) d) : d = c ∧ receiver.Typed Γ id := by
  replace h : Gives _ c (id, receiver) d := h
  unfold receiverOfValue at h
  split at h
  · rename_i hstruct
    cases h
    exact ⟨rfl, hvalue, hstruct⟩
  · rename_i target constant _ hpointee
    split at h
    · rename_i hstruct
      cases h
      exact ⟨rfl, hvalue, target, constant, hpointee, hstruct⟩
    · cases h
  · cases h

theorem typed_receiverOf {base : Surface.Expr} {id : StructId} {receiver : Receiver} (hc : Ready c)
    (h : receiverOf ask base scope c = .ok (id, receiver) d) :
    Onward c d ∧ receiver.Typed d.typeEnv id := by
  have hd := he.evaluated hc h fun _ hP => preserves_receiverOf hP _ _
  refine ⟨hd, ?_⟩
  unfold receiverOf at h
  obtain ⟨denoted, c₁, hdenoted, hrest⟩ := Run.bind_eq_ok.mp h
  obtain ⟨-, hbase⟩ := he.answer hc rfl hdenoted
  cases denoted with
  | value value =>
    obtain ⟨rfl, hreceiver⟩ := typed_receiverOfValue hbase hrest
    exact hreceiver
  | place place =>
    replace hrest : Gives _ c₁ (id, receiver) d := hrest
    dsimp only at hrest
    split at hrest
    · rename_i hstruct
      cases hrest
      exact ⟨.address hbase rfl, place.type, place.constant, rfl, hstruct⟩
    · obtain ⟨value, c₂, hread, hvalue⟩ := Run.bind_eq_ok.mp hrest
      have htyped := typed_readPlace hbase hread
      obtain ⟨-, rfl⟩ := readPlace_eq_ok hread
      obtain ⟨rfl, hreceiver⟩ := typed_receiverOfValue htyped hvalue
      exact hreceiver

/-- The struct of a member is complete, and a field is one that it has. -/
theorem structMember_complete {id : StructId} {member : Surface.Ident} {kind : MemberKind}
    (hc : Ready c) (h : structMember ask id member c = .ok kind d) :
    Onward c d ∧ (d.struct id).state = .complete ∧
      ∀ index, kind = .field index → index < (d.struct id).fields.length := by
  unfold structMember at h
  obtain ⟨_, c₁, hlayout, hrest⟩ := Run.bind_eq_ok.mp h
  obtain ⟨hc₁, hstate⟩ := he.answer hc rfl hlayout
  replace hrest : Gives _ c₁ kind d := hrest
  obtain ⟨_, _, hget, hrest⟩ := Run.bind_eq_ok.mp hrest
  cases hget
  replace hrest : Gives _ c₁ kind d := hrest
  split at hrest
  · rename_i hindex
    cases hrest
    refine ⟨hc₁, hstate, fun index hkind => ?_⟩
    cases hkind
    exact (List.findIdx?_eq_some_iff_findIdx_eq.mp hindex).1
  · split at hrest
    · cases hrest
      exact ⟨hc₁, hstate, fun index hkind => by cases hkind⟩
    · cases hrest
      exact ⟨hc₁, hstate, fun index hkind => by cases hkind⟩
  · cases hrest

omit he in
theorem typed_fieldDenoted {id : StructId} {index : Nat} {receiver : Receiver} {span : Span}
    {denoted : Denoted} (hstate : (c.struct id).state = .complete)
    (hindex : index < (c.struct id).fields.length) (hreceiver : receiver.Typed c.typeEnv id)
    (h : fieldDenoted id index receiver span c = .ok denoted d) :
    d = c ∧ denoted.Typed c.typeEnv := by
  unfold fieldDenoted at h
  obtain ⟨field, c₁, hfield, hreturn⟩ := Run.bind_eq_ok.mp h
  obtain ⟨rfl, ts, hts, ht⟩ := fieldAt_eq_ok hstate hindex hfield
  cases receiver with
  | pointer value constant =>
    cases hreturn
    obtain ⟨hvalue, target, targetConstant, htarget, hid⟩ := hreceiver
    exact ⟨rfl, .field hvalue htarget hid hts ht⟩
  | temporary value =>
    cases hreturn
    exact ⟨rfl, .extract hreceiver.1 hreceiver.2 hts ht⟩

theorem typed_memberDenoted {base : Surface.Expr} {member : Surface.Ident} {span : Span}
    {denoted : Denoted} (hc : Ready c)
    (h : memberDenoted ask base member span scope c = .ok denoted d) :
    denoted.Typed d.typeEnv := by
  unfold memberDenoted at h
  obtain ⟨⟨id, receiver⟩, c₁, hreceiver, hrest⟩ := Run.bind_eq_ok.mp h
  obtain ⟨kind, c₂, hkind, hrest⟩ := Run.bind_eq_ok.mp hrest
  obtain ⟨hc₁, hbase⟩ := typed_receiverOf he hc hreceiver
  obtain ⟨hc₂, hstate, hindex⟩ := structMember_complete he hc₁.ready hkind
  cases kind with
  | field index =>
    obtain ⟨rfl, htyped⟩ :=
      typed_fieldDenoted hstate (hindex index rfl) (hbase.mono hc₂.grows) hrest
    exact htyped
  | static function =>
    obtain ⟨t, c₃, hglobal, hreturn⟩ := Run.bind_eq_ok.mp hrest
    cases hreturn
    exact .function (he.answer hc₂.ready rfl hglobal).2
  | method function => cases hrest

/-! ## Calls -/

omit he in
theorem requireArguments_eq_ok {params bound received : Nat} {variadic : Bool} {span : Span}
    (h : requireArguments params variadic bound received span c = .ok ⟨⟩ d) :
    d = c ∧ params ≤ bound + received ∧ (variadic = false → params = bound + received) := by
  unfold requireArguments at h
  by_cases hcount : (bound + received < params || (!variadic && params < bound + received)) = true
  · rw [if_pos hcount] at h
    cases h
  · rw [if_neg hcount] at h
    cases h
    simp only [Bool.or_eq_true, Bool.and_eq_true, Bool.not_eq_true', decide_eq_true_eq] at hcount
    refine ⟨rfl, by omega, fun hvariadic => ?_⟩
    have hless : ¬ params < bound + received := fun hlt => hcount (.inr ⟨hvariadic, hlt⟩)
    omega

/-- Arguments have the types of their parameters, and those behind them any type. -/
theorem typed_argumentValues {params : List Ty} {args : List Surface.Expr} {values : List Core.Expr}
    (hc : Ready c) (h : argumentValues ask scope params args c = .ok values d) :
    (∀ value ∈ values, value.Typed d.typeEnv) ∧ values.length = args.length ∧
      List.Forall₂ (fun value t => value.type.same t) (values.take params.length)
        (params.take values.length) := by
  induction args generalizing params c values with
  | nil =>
    cases h
    simp
  | cons arg rest ih =>
    obtain ⟨value, c₁, hvalue, hrest⟩ := Run.bind_eq_ok.mp h
    obtain ⟨_, c₂, htaken, hrest⟩ := Run.bind_eq_ok.mp hrest
    obtain ⟨others, c₃, hothers, hreturn⟩ := Run.bind_eq_ok.mp hrest
    cases hreturn
    obtain ⟨hc₁, htyped, hsame⟩ := he.value hc hvalue
    have hc₂ := he.evaluated hc₁.ready htaken fun _ hP => hP.consume _
    obtain ⟨hrestTyped, hlength, hfixed⟩ := ih hc₂.ready hothers
    have hd := he.evaluated hc₂.ready hothers fun _ hP => preserves_argumentValues hP _ _ _
    refine ⟨?_, by simp [hlength], ?_⟩
    · intro v hv
      rcases List.mem_cons.mp hv with rfl | hv
      · exact htyped.mono (hc₂.trans hd).grows
      · exact hrestTyped v hv
    · cases params with
      | nil => simp
      | cons t ts => exact .cons (hsame t rfl) hfixed

/-- The call of a function, whose receiver is given by the caller. -/
theorem typed_callOf {callee : Core.Expr} {receiver : List Core.Expr} {args : List Surface.Expr}
    {span : Span} {e : Core.Expr} (hc : Ready c) (hcallee : callee.Typed c.typeEnv)
    (hreceiver : ∀ r ∈ receiver, r.Typed c.typeEnv)
    (hfixed : ∀ params variadic returns, callee.type.shape = .func params variadic returns →
      List.Forall₂ (fun r t => r.type.same t) (receiver.take params.length)
        (params.take receiver.length))
    (h : callOf ask callee receiver args span scope c = .ok e d) : e.Typed d.typeEnv := by
  replace h : Gives _ c e d := h
  unfold callOf at h
  split at h
  · rename_i params variadic returns hshape
    obtain ⟨_, c₁, hcount, hrest⟩ := Run.bind_eq_ok.mp h
    obtain ⟨values, c₂, hvalues, hreturn⟩ := Run.bind_eq_ok.mp hrest
    cases hreturn
    obtain ⟨rfl, hleast, hexact⟩ := requireArguments_eq_ok hcount
    obtain ⟨htyped, hlength, hsame⟩ := typed_argumentValues he hc hvalues
    have hd := he.evaluated hc hvalues fun _ hP => preserves_argumentValues hP _ _ _
    refine .call (hcallee.mono hd.grows) hshape (fun arg harg => ?_) ?_ fun hvariadic => ?_
    · rcases List.mem_append.mp harg with harg | harg
      · exact (hreceiver arg harg).mono hd.grows
      · exact htyped arg harg
    · -- the parameters are those of the receiver, with those of the arguments behind them
      have happend : List.Forall₂ (fun arg t => arg.type.same t)
          (receiver.take params.length ++ values.take (params.drop receiver.length).length)
          (params.take receiver.length ++ (params.drop receiver.length).take values.length) :=
        List.rel_append (hfixed params variadic returns hshape) hsame
      have hargs : (receiver ++ values).take params.length = receiver.take params.length ++
          values.take (params.drop receiver.length).length := by
        rw [List.take_append, List.length_drop]
      have hparams : params = params.take receiver.length ++
          (params.drop receiver.length).take values.length := by
        rw [List.take_of_length_le (l := params.drop receiver.length), List.take_append_drop]
        rw [List.length_drop]
        omega
      rw [← hparams] at happend
      rw [hargs]
      exact happend
    · have := hexact hvariadic
      simp [hlength]
      omega
  · cases h

/-- The receiver of a method is converted to the type of its first parameter. -/
theorem typed_receiverArgument {method : GlobalId} {id : StructId} {receiver : Receiver}
    {base : Surface.Expr} {member : Surface.Ident} {this : Core.Expr} {t : Ty} (hc : Ready c)
    (hreceiver : receiver.Typed c.typeEnv id)
    (h : receiverArgument ask method receiver base member c = .ok (this, t) d) :
    Onward c d ∧ d.typeOf? method = some t ∧ this.Typed d.typeEnv ∧
      ∀ params variadic returns, t.shape = .func params variadic returns →
        List.Forall₂ (fun r t => r.type.same t) ([this].take params.length) (params.take 1) := by
  unfold receiverArgument at h
  cases receiver with
  | temporary value => cases h
  | pointer value constant =>
    obtain ⟨_, _, hget, hrest⟩ := Run.bind_eq_ok.mp h
    cases hget
    dsimp only at hrest
    split at hrest
    · cases hrest
    · obtain ⟨u, c₁, hglobal, hrest⟩ := Run.bind_eq_ok.mp hrest
      obtain ⟨hc₁, hu⟩ := he.answer hc rfl hglobal
      have hvalue := hreceiver.1.mono hc₁.grows
      cases hshape : u.shape with
      | func params variadic returns =>
        simp only [hshape] at hrest
        cases params with
        | nil =>
          cases hrest
          refine ⟨hc₁, hu, hvalue, fun params' variadic' returns' hshape' => ?_⟩
          rw [hshape] at hshape'
          cases hshape'
          simp
        | cons first others =>
          obtain ⟨converted, c₂, hcoerce, hreturn⟩ := Run.bind_eq_ok.mp hrest
          obtain ⟨hconverted, rfl⟩ := Run.ofExcept_eq_ok.mp hcoerce
          cases hreturn
          obtain ⟨htyped, hsame⟩ := typed_coerce hvalue hconverted
          refine ⟨hc₁, hu, htyped, fun params' variadic' returns' hshape' => ?_⟩
          rw [hshape] at hshape'
          cases hshape'
          simpa using hsame
      | _ =>
        simp only [hshape] at hrest
        cases hrest
        refine ⟨hc₁, hu, hvalue, fun params' variadic' returns' hshape' => ?_⟩
        rw [hshape] at hshape'
        cases hshape'

theorem typed_memberCall {base : Surface.Expr} {member : Surface.Ident} {args : List Surface.Expr}
    {span : Span} {e : Core.Expr} (hc : Ready c)
    (h : memberCall ask base member args span scope c = .ok e d) : e.Typed d.typeEnv := by
  unfold memberCall at h
  obtain ⟨⟨id, receiver⟩, c₁, hreceiver, hrest⟩ := Run.bind_eq_ok.mp h
  obtain ⟨kind, c₂, hkind, hrest⟩ := Run.bind_eq_ok.mp hrest
  obtain ⟨hc₁, hbase⟩ := typed_receiverOf he hc hreceiver
  obtain ⟨hc₂, hstate, hindex⟩ := structMember_complete he hc₁.ready hkind
  have hnone {callee : Core.Expr} (params : List Ty) (variadic : Bool) (returns : Ty)
      (_ : callee.type.shape = .func params variadic returns) :
      List.Forall₂ (fun (r : Core.Expr) t => r.type.same t) (List.take params.length [])
        (params.take 0) := by simp
  cases kind with
  | field index =>
    obtain ⟨denoted, c₃, hdenoted, hrest⟩ := Run.bind_eq_ok.mp hrest
    obtain ⟨callee, c₄, hread, hcall⟩ := Run.bind_eq_ok.mp hrest
    obtain ⟨rfl, htyped⟩ :=
      typed_fieldDenoted hstate (hindex index rfl) (hbase.mono hc₂.grows) hdenoted
    obtain rfl : c₄ = c₃ :=
      preserves_readDenoted (P := (· = c₃)) denoted (Run.ends_of_ok hread) rfl
    exact typed_callOf he hc₂.ready (typed_readDenoted htyped hread) (fun r hr => by cases hr)
      hnone hcall
  | static function =>
    obtain ⟨t, c₃, hglobal, hcall⟩ := Run.bind_eq_ok.mp hrest
    obtain ⟨hc₃, ht⟩ := he.answer hc₂.ready rfl hglobal
    exact typed_callOf he hc₃.ready (.function ht) (fun r hr => by cases hr) hnone hcall
  | method function =>
    obtain ⟨⟨this, t⟩, c₃, hthis, hcall⟩ := Run.bind_eq_ok.mp hrest
    obtain ⟨hc₃, ht, htyped, hfixed⟩ :=
      typed_receiverArgument he hc₂.ready (hbase.mono hc₂.grows) hthis
    exact typed_callOf he hc₃.ready (.function ht) (by simpa using htyped) hfixed hcall

theorem typed_callValue {callee : Surface.Expr} {args : List Surface.Expr} {span : Span}
    {e : Core.Expr} (hc : Ready c) (h : callValue ask callee args span scope c = .ok e d) :
    e.Typed d.typeEnv := by
  have hplain (h : (do callOf ask (← ask.anyValue callee scope) [] args span scope : Check Core.Expr)
      c = .ok e d) : e.Typed d.typeEnv := by
    obtain ⟨value, c₁, hvalue, hcall⟩ := Run.bind_eq_ok.mp h
    obtain ⟨hc₁, htyped, -⟩ := he.value hc hvalue
    exact typed_callOf he hc₁.ready htyped (fun r hr => by cases hr) (fun _ _ _ _ => by simp) hcall
  unfold callValue at h
  cases hkind : callee.kind <;> simp only [hkind] at h
  case member base member => exact typed_memberCall he hc h
  all_goals exact hplain h

theorem typed_macroArguments {params : List MacroParam} {args : List Surface.Expr}
    {values : List Core.Expr} (hc : Ready c)
    (h : macroArguments ask scope params args c = .ok values d) :
    ∀ value ∈ values, value.Typed d.typeEnv := by
  induction args generalizing params c values with
  | nil =>
    cases h
    simp
  | cons arg rest ih =>
    obtain ⟨value, c₁, hvalue, hrest⟩ := Run.bind_eq_ok.mp h
    obtain ⟨hc₁, htyped, -⟩ := he.value hc hvalue
    dsimp only at hrest
    split at hrest
    · cases hrest
    · obtain ⟨_, c₂, htaken, hrest⟩ := Run.bind_eq_ok.mp hrest
      obtain ⟨others, c₃, hothers, hreturn⟩ := Run.bind_eq_ok.mp hrest
      cases hreturn
      have hc₂ := he.evaluated hc₁.ready htaken fun _ hP => hP.consume _
      have hd := he.evaluated hc₂.ready hothers fun _ hP => preserves_macroArguments hP _ _ _
      intro v hv
      rcases List.mem_cons.mp hv with rfl | hv
      · exact htyped.mono (hc₂.trans hd).grows
      · exact ih hc₂.ready hothers v hv

theorem typed_macroValue {path : List Surface.Ident} {args : List Surface.Expr} {span : Span}
    {e : Core.Expr} (hc : Ready c) (h : macroValue ask path args span scope c = .ok e d) :
    e.Typed d.typeEnv := by
  unfold macroValue at h
  obtain ⟨id, c₁, hmacro, hrest⟩ := Run.bind_eq_ok.mp h
  have hc₁ := he.evaluated hc hmacro fun _ hP => preserves_namedMacro hP _ _
  obtain ⟨_, _, hget, hrest⟩ := Run.bind_eq_ok.mp hrest
  cases hget
  dsimp only at hrest
  split at hrest
  · cases hrest
  · obtain ⟨_, c₂, hcount, hrest⟩ := Run.bind_eq_ok.mp hrest
    obtain ⟨values, c₃, hvalues, hreturn⟩ := Run.bind_eq_ok.mp hrest
    cases hreturn
    obtain ⟨rfl, -⟩ := requireArguments_eq_ok hcount
    exact .macroCall (typed_macroArguments he hc₁.ready hvalues)

/-! ## Initializers -/

theorem Elaborates.objectType {t : Surface.TypeExpr} {target : Ty} (hc : Ready c)
    (h : objectType ask t scope c = .ok target d) : Onward c d :=
  he.evaluated hc h fun _ hP => preserves_objectType hP _ _

theorem typed_newValue {t : Surface.TypeExpr} {value : Surface.Expr} {span : Span} {e : Core.Expr}
    (hc : Ready c) (h : newValue ask t value span scope c = .ok e d) : e.Typed d.typeEnv := by
  unfold newValue at h
  obtain ⟨target, c₁, htarget, hrest⟩ := Run.bind_eq_ok.mp h
  have hc₁ := he.objectType hc htarget
  dsimp only at hrest
  split at hrest
  · cases hrest
  · obtain ⟨content, c₂, hcontent, hrest⟩ := Run.bind_eq_ok.mp hrest
    obtain ⟨_, c₃, htaken, hreturn⟩ := Run.bind_eq_ok.mp hrest
    cases hreturn
    obtain ⟨hc₂, htyped, hsame⟩ := he.valueOf hc₁.ready hcontent
    have hd := he.evaluated hc₂.ready htaken fun _ hP => hP.consume _
    exact .new (htyped.mono hd.grows) hsame

omit he in
/-- What is written for fields has the types of those fields. -/
def WrittenTyped (Γ : TypeEnv) (fields : List Field) (written : List FieldValue) : Prop :=
  ∀ w ∈ written, w.value.Typed Γ ∧ ∀ f, fields[w.index]? = some f → w.value.type.same f.type

theorem typed_writtenFields {fields : List Field} {done written : List FieldValue}
    {exprs : List (Surface.Ident × Surface.Expr)} (hc : Ready c)
    (hdone : WrittenTyped c.typeEnv fields done)
    (h : writtenFields ask scope fields done exprs c = .ok written d) :
    WrittenTyped d.typeEnv fields written := by
  induction exprs generalizing c done with
  | nil =>
    cases h
    exact hdone
  | cons expr rest ih =>
    obtain ⟨name, e⟩ := expr
    replace h : Gives _ c written d := h
    unfold writtenFields at h
    split at h
    · cases h
    · rename_i index hindex
      have hwrite (h : Gives (do
            let value ← ask (.value e (fields[index]?.map (·.type)) scope)
            consume value
            writtenFields ask scope fields (done ++ [⟨index, value, name.span⟩]) rest) c written d) :
          WrittenTyped d.typeEnv fields written := by
        obtain ⟨value, c₁, hvalue, hrest⟩ := Run.bind_eq_ok.mp h
        obtain ⟨_, c₂, htaken, hrest⟩ := Run.bind_eq_ok.mp hrest
        obtain ⟨hc₁, htyped, hsame⟩ := he.value hc hvalue
        have hc₂ := he.evaluated hc₁.ready htaken fun _ hP => hP.consume _
        refine ih hc₂.ready (fun w hw => ?_) hrest
        rcases List.mem_append.mp hw with hw | hw
        · exact ⟨(hdone w hw).1.mono (hc₁.trans hc₂).grows, (hdone w hw).2⟩
        · obtain rfl := List.mem_singleton.mp hw
          refine ⟨htyped.mono hc₂.grows, fun f hf => hsame f.type ?_⟩
          show fields[index]?.map (·.type) = some f.type
          rw [show fields[index]? = some f from hf]
          rfl
      dsimp only at h
      split at h
      · cases h
      · exact hwrite h

omit he in
/-- There is one value for each field, written or the default. -/
theorem typed_fieldValues {declared fields : List Field} {written : List FieldValue} {span : Span}
    {index : Nat} {values : List Core.Expr} (hwritten : WrittenTyped Γ declared written)
    (hdefaults : ∀ f ∈ fields, f.Sound Γ)
    (hfields : ∀ k f, fields[k]? = some f → declared[index + k]? = some f)
    (h : fieldValues written span index fields = .ok values) :
    (∀ value ∈ values, value.Typed Γ) ∧
      List.Forall₂ (fun value t => value.type.same t) values (fields.map (·.type)) := by
  induction fields generalizing index values with
  | nil =>
    cases h
    simp
  | cons field rest ih =>
    unfold fieldValues at h
    split at h
    · rename_i value hvalue
      cases hothers : fieldValues written span (index + 1) rest with
      | error diagnostic => simp [hothers, Except.map] at h
      | ok others =>
        rw [hothers] at h
        cases h
        obtain ⟨htyped, hsame⟩ := ih (fun f hf => hdefaults f (List.mem_cons_of_mem _ hf))
          (fun k f hk => by
            have hnext := hfields (k + 1) f hk
            rwa [show index + 1 + k = index + (k + 1) by omega]) hothers
        have hfirst : value.Typed Γ ∧ value.type.same field.type := by
          cases hfound : written.find? (·.index == index) with
          | some w =>
            rw [hfound] at hvalue
            cases hvalue
            have hw := hwritten w (List.mem_of_find?_eq_some hfound)
            have hindex : w.index = index := by simpa using List.find?_some hfound
            exact ⟨hw.1, hw.2 field (by rw [hindex]; exact hfields 0 field rfl)⟩
          | none =>
            rw [hfound] at hvalue
            exact hdefaults field List.mem_cons_self value hvalue
        refine ⟨fun v hv => ?_, .cons hfirst.2 hsame⟩
        rcases List.mem_cons.mp hv with rfl | hv
        · exact hfirst.1
        · exact htyped v hv
    · cases h

theorem typed_structValue {t : Surface.TypeExpr} {fields : List (Surface.Ident × Surface.Expr)}
    {heap : Bool} {span : Span} {e : Core.Expr} (hc : Ready c)
    (h : structValue ask t fields heap span scope c = .ok e d) : e.Typed d.typeEnv := by
  unfold structValue at h
  obtain ⟨target, c₁, htarget, hrest⟩ := Run.bind_eq_ok.mp h
  have hc₁ := he.onward hc rfl htarget
  replace hrest : Gives _ c₁ e d := hrest
  split at hrest
  · cases hrest
  · rename_i id hid
    obtain ⟨_, c₂, hlayout, hrest⟩ := Run.bind_eq_ok.mp hrest
    obtain ⟨hc₂, hstate⟩ := he.answer hc₁.ready rfl hlayout
    obtain ⟨_, _, hget, hrest⟩ := Run.bind_eq_ok.mp hrest
    cases hget
    obtain ⟨written, c₃, hwritten, hrest⟩ := Run.bind_eq_ok.mp hrest
    obtain ⟨values, c₄, hlaid, hreturn⟩ := Run.bind_eq_ok.mp hrest
    obtain ⟨hvalues, rfl⟩ := Run.ofExcept_eq_ok.mp hlaid
    cases hreturn
    have hd := he.evaluated hc₂.ready hwritten fun _ hP => preserves_writtenFields hP _ _ _ _
    have htypedWritten := typed_writtenFields he hc₂.ready (fun w hw => by cases hw) hwritten
    have hdefaults (f) (hf : f ∈ (c₂.struct id).fields) : f.Sound d.typeEnv :=
      ((hc₂.ready.wellTyped.structs id).defaults f hf).mono
        ((c₂.envWith_empty_extends _).trans hd.grows)
    obtain ⟨htyped, hsame⟩ := typed_fieldValues htypedWritten hdefaults
      (fun k f hk => by rwa [Nat.zero_add]) hvalues
    exact .structInit htyped hid (hd.grows.fields _ _ (Context.fieldTypes?_of_complete hstate)) hsame

theorem typed_elementValues {element : Ty} {exprs : List Surface.Expr} {values : List Core.Expr}
    (hc : Ready c) (h : elementValues ask scope element exprs c = .ok values d) :
    ∀ value ∈ values, value.Typed d.typeEnv ∧ value.type.same element := by
  induction exprs generalizing c values with
  | nil =>
    cases h
    simp
  | cons e rest ih =>
    obtain ⟨value, c₁, hvalue, hrest⟩ := Run.bind_eq_ok.mp h
    obtain ⟨_, c₂, htaken, hrest⟩ := Run.bind_eq_ok.mp hrest
    obtain ⟨others, c₃, hothers, hreturn⟩ := Run.bind_eq_ok.mp hrest
    cases hreturn
    obtain ⟨hc₁, htyped, hsame⟩ := he.valueOf hc hvalue
    have hc₂ := he.evaluated hc₁.ready htaken fun _ hP => hP.consume _
    have hd := he.evaluated hc₂.ready hothers fun _ hP => preserves_elementValues hP _ _ _
    intro v hv
    rcases List.mem_cons.mp hv with rfl | hv
    · exact ⟨htyped.mono (hc₂.trans hd).grows, hsame⟩
    · exact ih hc₂.ready hothers v hv

theorem typed_arrayValue {t : Surface.TypeExpr} {exprs : List Surface.Expr} {heap : Bool}
    {span : Span} {e : Core.Expr} (hc : Ready c)
    (h : arrayValue ask t exprs heap span scope c = .ok e d) : e.Typed d.typeEnv := by
  unfold arrayValue at h
  obtain ⟨element, c₁, helement, hrest⟩ := Run.bind_eq_ok.mp h
  obtain ⟨values, c₂, hvalues, hreturn⟩ := Run.bind_eq_ok.mp hrest
  cases hreturn
  have htyped := typed_elementValues he (he.objectType hc helement).ready hvalues
  exact .arrayInit (fun v hv => (htyped v hv).1) (fun v hv => (htyped v hv).2) rfl

theorem typed_filledValue {t : Surface.TypeExpr} {size value : Surface.Expr} {heap : Bool}
    {span : Span} {e : Core.Expr} (hc : Ready c)
    (h : filledValue ask t size value heap span scope c = .ok e d) : e.Typed d.typeEnv := by
  revert h
  change Gives _ c e d → _
  unfold filledValue
  refine gives_bind fun element c₁ helement => ?_
  have hc₁ := he.objectType hc helement
  extract_lets +onlyGivenNames filled
  have hfilled : Gives (filled ⟨⟩) c₁ e d → e.Typed d.typeEnv := by
    refine gives_bind fun count c₂ hcount => gives_bind fun known c₃ hknown => ?_
    obtain rfl : c₃ = c₂ :=
      preserves_fillSize (P := (· = c₂)) _ _ (Run.ends_of_ok hknown) rfl
    refine gives_bind fun content c₄ hcontent => ?_
    obtain ⟨hc₃, hsize, hsizeType⟩ := he.valueOf hc₁.ready hcount
    obtain ⟨hc₄, hvalue, hsame⟩ := he.valueOf hc₃.ready hcontent
    have htyped (hknown : (!heap && known.isNone) = false) :
        (initialized (.arrayFill element count content heap)
          (Shape.array element false (if heap then none else known)).plain heap span).Typed
            c₄.typeEnv := by
      refine .arrayFill (hsize.mono hc₄.grows) hvalue (shape_of_same_int hsizeType rfl) hsame ?_ rfl
      cases heap <;> simp_all
    cases hunknown : !heap && known.isNone with
    | true => exact fun h => by cases h
    | false =>
      intro h
      cases h
      exact htyped hunknown
  clear_value filled
  split
  · exact fun h => by cases h
  · exact hfilled

/-! ## Values -/

theorem typed_referenceValue {target : Surface.Expr} {constant : Bool} {span : Span}
    {e : Core.Expr} (hc : Ready c)
    (h : referenceValue ask target constant span scope c = .ok e d) : e.Typed d.typeEnv := by
  unfold referenceValue at h
  obtain ⟨place, c₁, hplace, hreturn⟩ := Run.bind_eq_ok.mp h
  cases hreturn
  exact .address (he.answer hc rfl (requirePlace_eq_ok hplace)).2 rfl

theorem typed_sharedValue {owner : Surface.Expr} {span : Span} {e : Core.Expr} (hc : Ready c)
    (h : sharedValue ask owner span scope c = .ok e d) : e.Typed d.typeEnv := by
  unfold sharedValue at h
  obtain ⟨value, c₁, hvalue, hrest⟩ := Run.bind_eq_ok.mp h
  obtain ⟨-, htyped, -⟩ := he.value hc hvalue
  replace hrest : Gives _ c₁ e d := hrest
  split at hrest
  · rename_i target constant hshape
    cases hrest
    refine .castPointer htyped (.inl ?_)
    rw [hshape]
    show ((constant || !constant) && Shape.pointsAlike target target) = true
    simp [Shape.pointsAlike, Ty.same_refl]
  · cases hrest

theorem typed_rawValue {e : Surface.Expr} {expected : Option Ty} {value : Core.Expr}
    (hc : Ready c) (h : rawValue ask e expected scope c = .ok value d) : value.Typed d.typeEnv := by
  have hplace (h : (do readDenoted (← ask (.denoted e false scope)) : Check Core.Expr) c =
      .ok value d) : value.Typed d.typeEnv := by
    obtain ⟨denoted, c₁, hdenoted, hread⟩ := Run.bind_eq_ok.mp h
    obtain ⟨-, htyped⟩ := he.answer hc rfl hdenoted
    obtain rfl : d = c₁ :=
      preserves_readDenoted (P := (· = c₁)) denoted (Run.ends_of_ok hread) rfl
    exact typed_readDenoted htyped hread
  unfold rawValue at h
  cases hkind : e.kind <;> simp only [hkind] at h
  case number => exact typed_numberLiteral h
  case bool =>
    cases h
    exact .bool rfl
  case str =>
    cases h
    exact .str rfl
  case call => exact typed_callValue he hc h
  case macroCall => exact typed_macroValue he hc h
  case binary op left right =>
    split at h
    · exact typed_logicalValue he ‹_› hc h
    · rename_i hop
      exact typed_binaryValue he (by simpa using hop) hc h
  case unary => exact typed_unaryValue he hc h
  case ref => exact typed_referenceValue he hc h
  case share => exact typed_sharedValue he hc h
  case new => exact typed_newValue he hc h
  case structInit => exact typed_structValue he hc h
  case arrayInit => exact typed_arrayValue he hc h
  case arrayFill => exact typed_filledValue he hc h
  all_goals exact hplace h

theorem typed_checkDenoted {e : Surface.Expr} {write : Bool} {denoted : Denoted} (hc : Ready c)
    (h : checkDenoted ask e write scope c = .ok denoted d) : denoted.Typed d.typeEnv := by
  unfold checkDenoted at h
  cases hkind : e.kind <;> simp only [hkind] at h
  case path => exact typed_pathDenoted he hc h
  case deref =>
    obtain ⟨place, c₁, hplace, hreturn⟩ := Run.bind_eq_ok.mp h
    cases hreturn
    exact typed_pointeePlace he hc hplace
  case index =>
    obtain ⟨place, c₁, hplace, hreturn⟩ := Run.bind_eq_ok.mp h
    cases hreturn
    exact typed_elementPlace he hc hplace
  case member => exact typed_memberDenoted he hc h
  all_goals
    obtain ⟨value, c₁, hvalue, hreturn⟩ := Run.bind_eq_ok.mp h
    cases hreturn
    exact typed_rawValue he hc hvalue

/-- A checked value is typed, with the type that was expected. -/
theorem typed_checkValue {e : Surface.Expr} {expected : Option Ty} {value : Core.Expr}
    (hc : Ready c) (h : checkValue ask e expected scope c = .ok value d) :
    value.Typed d.typeEnv ∧ ∀ t, expected = some t → value.type.same t := by
  unfold checkValue at h
  obtain ⟨raw, c₁, hraw, hrest⟩ := Run.bind_eq_ok.mp h
  have htyped := typed_rawValue he hc hraw
  dsimp only at hrest
  split at hrest
  · cases hrest
  · cases expected with
    | none =>
      cases hrest
      exact ⟨htyped, fun t ht => by cases ht⟩
    | some t =>
      obtain ⟨hcoerce, rfl⟩ := Run.ofExcept_eq_ok.mp hrest
      obtain ⟨htyped', hsame⟩ := typed_coerce htyped hcoerce
      refine ⟨htyped', fun u hu => ?_⟩
      cases hu
      exact hsame

end

end OwnLang.Check
