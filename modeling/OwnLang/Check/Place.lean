import OwnLang.Check.Path
import OwnLang.Check.Signature

/-!
# Locations

Paths, pointers that are followed, elements and members denote locations, unless they lead through
a value that is stored nowhere. A location is constant if its variable is, or if the pointer, field
or array it is reached through is.
-/

namespace OwnLang.Check

open Surface (Ident)

/-- What is known of the value at a location when compiling: constant locals and globals are. -/
def knownAt (c : Context) (place : Core.Place) : Option Const :=
  match place.kind with
  | .slot id =>
    let l := (c.frame.getD default).localAt id
    if l.constant then l.value else none
  | .global id =>
    let g := c.global id
    if g.constant then g.value else none
  | _ => none

/-- Whether a location is what a pointer points at. -/
def isPointee (place : Core.Place) : Bool :=
  match place.kind with
  | .deref _ => true
  | _ => false

/-- The value at a location. A unique value is not copied out of a pointer. -/
def readPlace (place : Core.Place) : Check Core.Expr := do
  if isPointee place && !place.type.shape.isCopyable then
    Run.reject (.uniqueDereference place.type.describe) place.span
  return .mk (.load place) place.type (knownAt (← get) place) place.span

/-- The value of what an expression denotes. -/
def readDenoted : Denoted → Check Core.Expr
  | .value value => return value
  | .place place => readPlace place

/-- The location of a local. One that was moved may only be written. -/
def slotPlace (id : LocalId) (write : Bool) (span : Span) : Check Core.Place := do
  let l := (← frame).localAt id
  match l.ownership, write with
  | .moved site, false =>
    Run.fail
      { cause := .movedValue l.name.name, span, related := some ⟨"Moved here", site⟩ }
  | _, _ => return .mk (.slot id) l.type l.constant span

/-- What a function or variable denotes. -/
def globalDenoted (ask : Asker) (id : GlobalId) (span : Span) : Check Denoted := do
  let t ← ask (.global id span)
  let g := (← get).global id
  if g.isFunction then return .value (.computed (.function id) t span)
  else return .place (.mk (.global id) t g.constant span)

/-- A field of a struct. -/
def fieldAt (id : StructId) (index : Nat) : Check Field := do
  let d := (← get).struct id
  return d.fields[index]?.getD
    { name := default, constant := true, type := Shape.void.plain, default := none }

/-- The location of a field of `this`. -/
def ownFieldPlace (this : LocalId) (id : StructId) (index : Nat) (span : Span) :
    Check Core.Place := do
  let thisType := ((← frame).localAt this).type
  let field ← fieldAt id index
  let base := (Core.Place.mk (.slot this) thisType true span).read
  return .mk (.field base id index) field.type (thisType.shape.isConstant || field.constant) span

/-- What a path denotes. -/
def pathDenoted (ask : Asker) (path : List Ident) (args : List Surface.TypeExpr) (write : Bool)
    (span : Span) (scope : Scope) : Check Denoted := do
  match ← resolvePath ask path args scope with
  | .slot id => return .place (← slotPlace id write span)
  | .global id => globalDenoted ask id span
  | .field this id index => return .place (← ownFieldPlace this id index span)

/-- The location that a pointer points at. -/
def pointeePlace (ask : Asker) (pointer : Surface.Expr) (span : Span) (scope : Scope) :
    Check Core.Place := do
  let value ← ask.anyValue pointer scope
  match value.type.shape.pointee? with
  | none => Run.reject (.notDereferenceable value.type.describe) span
  | some (target, constant) => do
    if target.shape.isUnsizedArray then
      Run.reject (.unsizedDereference value.type.describe) span
    ask.complete target span
    return .mk (.deref value) target constant span

/-- A value that points at the first element of an array, with the type of the elements and whether
they may not be changed. -/
structure Elements where
  data : Core.Expr
  element : Ty
  constant : Bool

/-- The elements that a value points at. -/
def elementsOf (value : Core.Expr) (span : Span) : Check Elements :=
  let refuse : Check Elements := Run.reject (.notIndexable value.type.describe) span
  let behind (target : Ty) (constant : Bool) : Check Elements :=
    match target.shape with
    | .array element arrayConstant _ => return ⟨value, element, constant || arrayConstant⟩
    | _ => refuse
  match value.type.shape with
  | .array element constant none => return ⟨value, element, constant⟩
  | .array _ _ (some _) => Run.reject .expectedVariable span
  | .owner target constant => behind target constant
  | .shared target constant => behind target constant
  | _ => refuse

/-- The elements of what the base of an index denotes. A sized array is reached by its address. -/
def elementsDenoted (denoted : Denoted) (baseSpan span : Span) : Check Elements := do
  match denoted with
  | .place place =>
    match place.type.shape with
    | .array element arrayConstant (some _) =>
      let constant := place.constant || arrayConstant
      return ⟨place.pointerTo constant span, element, constant⟩
    | _ => elementsOf (← readPlace place) baseSpan
  | .value value => elementsOf value baseSpan

/-- The location of an element. -/
def elementPlace (ask : Asker) (base index : Surface.Expr) (span : Span) (scope : Scope) :
    Check Core.Place := do
  let elements ← elementsDenoted (← ask (.denoted base false scope)) base.span span
  let position ← ask.valueOf index Shape.i64.plain scope
  return .mk (.element elements.data position) elements.element elements.constant span

/-- The struct that a member is looked up on. -/
inductive Receiver where
  /-- It is pointed at by a value, through which it may not be changed if `constant`. -/
  | pointer (value : Core.Expr) (constant : Bool)
  /-- It is stored nowhere. -/
  | temporary (value : Core.Expr)

/-- The struct behind a value that is no location of one. -/
def receiverOfValue (value : Core.Expr) (span : Span) : Check (StructId × Receiver) :=
  match value.type.shape.struct?, value.type.shape.pointee? with
  | some id, _ => return (id, .temporary value)
  | none, some (target, constant) =>
    match target.shape.struct? with
    | some id => return (id, .pointer value constant)
    | none => Run.reject (.notAStruct value.type.describe) span
  | none, none => Run.reject (.notAStruct value.type.describe) span

/-- The struct that an expression denotes, points at or has as its value. -/
def receiverOf (ask : Asker) (base : Surface.Expr) (scope : Scope) :
    Check (StructId × Receiver) := do
  match ← ask (.denoted base false scope) with
  | .value value => receiverOfValue value base.span
  | .place place =>
    match place.type.shape.struct? with
    | some id => return (id, .pointer (place.pointerTo place.constant place.span) place.constant)
    | none => receiverOfValue (← readPlace place) base.span

/-- What a member's name stands for. -/
inductive MemberKind where
  | field (index : Nat)
  | method (id : GlobalId)
  | static (id : GlobalId)

/-- The member of a struct: a field, or else a method or static function. -/
def structMember (ask : Asker) (id : StructId) (member : Ident) : Check MemberKind := do
  ask (.layout id member.span)
  let c ← get
  let d := c.struct id
  match d.fieldIndex? member.name, d.member? member.name with
  | some index, _ => return .field index
  | none, some function =>
    return if (c.global function).fnKind? = some .static then .static function
      else .method function
  | none, none => Run.reject (.memberNotFound member.name d.display) member.span

/-- What a field of a struct denotes. -/
def fieldDenoted (id : StructId) (index : Nat) (receiver : Receiver) (span : Span) :
    Check Denoted := do
  let field ← fieldAt id index
  match receiver with
  | .pointer base constant =>
    return .place (.mk (.field base id index) field.type (constant || field.constant) span)
  | .temporary base => return .value (.computed (.extract base index) field.type span)

/-- What a member denotes that is not called. -/
def memberDenoted (ask : Asker) (base : Surface.Expr) (member : Ident) (span : Span)
    (scope : Scope) : Check Denoted := do
  let (id, receiver) ← receiverOf ask base scope
  match ← structMember ask id member with
  | .field index => fieldDenoted id index receiver span
  | .static function => return .value (.computed (.function function) (← ask (.global function span)) span)
  | .method _ => Run.reject .expectedVariable span

end OwnLang.Check
