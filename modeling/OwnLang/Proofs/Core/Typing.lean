import Mathlib
import OwnLang.Core.Stmt
import OwnLang.Proofs.Ty.Same
import OwnLang.Ty.Conversion

/-!
# Typing of checked trees

`Expr.Typed`, `Place.Typed` and `Stmt.Typed` are the typing rules of checked trees, one for each form,
over what is known of variables, functions and structs (`TypeEnv`). They are stated without regard to
how checking comes by a tree. Types are compared by `Ty.same`, which does not look at aliases.

What is known grows while a program is checked: a tree that was typed stays typed (`Expr.Typed.mono`
and the lemmas beside it).
-/

namespace OwnLang.Core

open Surface (BinaryOp UnaryOp)

/-- What typing rules know of names. -/
structure TypeEnv where
  /-- The types of the functions and variables that are resolved. -/
  global : GlobalId → Option Ty
  /-- The types of the fields of complete structs. -/
  fields : StructId → Option (List Ty)
  /-- The types of the locals that are declared. -/
  slot : LocalId → Option Ty

namespace TypeEnv

/-- Everything that is known in one environment is known in the other one. -/
structure Extends (Γ Δ : TypeEnv) : Prop where
  global : ∀ id t, Γ.global id = some t → Δ.global id = some t
  fields : ∀ id ts, Γ.fields id = some ts → Δ.fields id = some ts
  slot : ∀ id t, Γ.slot id = some t → Δ.slot id = some t

theorem Extends.refl (Γ : TypeEnv) : Γ.Extends Γ :=
  ⟨fun _ _ h => h, fun _ _ h => h, fun _ _ h => h⟩

theorem Extends.trans {Γ Δ Ε : TypeEnv} (h : Γ.Extends Δ) (h' : Δ.Extends Ε) : Γ.Extends Ε where
  global id t ht := h'.global id t (h.global id t ht)
  fields id ts hts := h'.fields id ts (h.fields id ts hts)
  slot id t ht := h'.slot id t (h.slot id t ht)

end TypeEnv

/-- Whether values of a shape can be told apart by an operator: integers are ordered, and booleans,
pointers and functions can be equal. -/
def Comparable (op : BinaryOp) (shape : Shape) : Prop :=
  match op, shape with
  | _, .int _ => True
  | .eq, .bool | .eq, .owner .. | .eq, .shared .. | .eq, .func .. => True
  | .ne, .bool | .ne, .owner .. | .ne, .shared .. | .ne, .func .. => True
  | _, _ => False

/-- A value of the shape points at the elements of an array: it is an array of unknown size, or a
pointer to an array. -/
def PointsAtElements (shape : Shape) (element : Ty) : Prop :=
  (∃ constant, shape = .array element constant none) ∨
    ∃ target constant arrayConstant size, shape.pointee? = some (target, constant) ∧
      target.shape = .array element arrayConstant size

/-- The type of what an initializer of a type makes: a value of it, or the owner of one. -/
def madeType (heap : Bool) (t : Ty) : Ty := if heap then (Shape.ownerOf t).plain else t

section

variable (Γ : TypeEnv)

mutual

/-- An expression satisfies the typing rules at every node. -/
inductive Expr.Typed : Expr → Prop
  | int {n : Int} {width : Width} {t : Ty} {k : Option Const} {span : Span}
      (ht : t.shape = .int width) (hfits : intFits n width.bits) : Expr.Typed (.mk (.int n) t k span)
  | bool {b : Bool} {t : Ty} {k : Option Const} {span : Span} (ht : t.shape = .bool) :
      Expr.Typed (.mk (.bool b) t k span)
  | str {text : String} {t : Ty} {k : Option Const} {span : Span} (ht : t.shape = .string) :
      Expr.Typed (.mk (.str text) t k span)
  | load {place : Place} {k : Option Const} {span : Span} (hplace : Place.Typed place) :
      Expr.Typed (.mk (.load place) place.type k span)
  | function {id : GlobalId} {t : Ty} {k : Option Const} {span : Span}
      (hid : Γ.global id = some t) : Expr.Typed (.mk (.function id) t k span)
  /-- The arguments, the receiver of a method in front, are those of the parameters, and behind them
  the others that a variadic function takes. -/
  | call {callee : Expr} {args : List Expr} {params : List Ty} {variadic : Bool} {returns : Ty}
      {k : Option Const} {span : Span} (hcallee : Expr.Typed callee)
      (hshape : callee.type.shape = .func params variadic returns)
      (hargs : ∀ arg ∈ args, Expr.Typed arg)
      (hfixed : List.Forall₂ (fun arg t => arg.type.same t) (args.take params.length) params)
      (hothers : variadic = false → args.length = params.length) :
      Expr.Typed (.mk (.call callee args) returns k span)
  | macroCall {id : MacroId} {args : List Expr} {t : Ty} {k : Option Const} {span : Span}
      (hargs : ∀ arg ∈ args, Expr.Typed arg) : Expr.Typed (.mk (.macroCall id args) t k span)
  | arithmetic {op : BinaryOp} {left right : Expr} {width : Width} {t : Ty} {k : Option Const}
      {span : Span} (hop : op.isArithmetic) (hleft : Expr.Typed left) (hright : Expr.Typed right)
      (ht : t.shape = .int width) (hleftType : left.type.shape = .int width)
      (hrightType : right.type.shape = .int width) : Expr.Typed (.mk (.binary op left right) t k span)
  | comparison {op : BinaryOp} {left right : Expr} {t : Ty} {k : Option Const} {span : Span}
      (hop : op.isComparison) (hleft : Expr.Typed left) (hright : Expr.Typed right)
      (ht : t.shape = .bool) (hsame : right.type.same left.type)
      (hcomparable : Comparable op left.type.shape) :
      Expr.Typed (.mk (.binary op left right) t k span)
  | logical {op : BinaryOp} {left right : Expr} {t : Ty} {k : Option Const} {span : Span}
      (hop : op.isLogical) (hleft : Expr.Typed left) (hright : Expr.Typed right)
      (ht : t.shape = .bool) (hleftType : left.type.shape = .bool)
      (hrightType : right.type.shape = .bool) : Expr.Typed (.mk (.binary op left right) t k span)
  | neg {e : Expr} {width : Width} {k : Option Const} {span : Span} (he : Expr.Typed e)
      (ht : e.type.shape = .int width) : Expr.Typed (.mk (.unary .neg e) e.type k span)
  | not {e : Expr} {k : Option Const} {span : Span} (he : Expr.Typed e) (ht : e.type.shape = .bool) :
      Expr.Typed (.mk (.unary .not e) e.type k span)
  | address {place : Place} {constant : Bool} {t : Ty} {k : Option Const} {span : Span}
      (hplace : Place.Typed place) (ht : t.shape = .shared place.type constant) :
      Expr.Typed (.mk (.address place) t k span)
  | castInt {e : Expr} {source target : Width} {t : Ty} {k : Option Const} {span : Span}
      (he : Expr.Typed e) (hsource : e.type.shape = .int source) (ht : t.shape = .int target)
      (hne : source ≠ target) : Expr.Typed (.mk (.cast e (.int source target)) t k span)
  /-- Another view of the same address: the pointers, or the arrays of unknown size, are related by
  the conversions that a program need not write. -/
  | castPointer {e : Expr} {t : Ty} {k : Option Const} {span : Span} (he : Expr.Typed e)
      (ht : e.type.shape.convertsPointer t.shape ∨ e.type.shape.viewsArray t.shape) :
      Expr.Typed (.mk (.cast e .pointer) t k span)
  | extract {base : Expr} {index : Nat} {id : StructId} {ts : List Ty} {t : Ty} {k : Option Const}
      {span : Span} (hbase : Expr.Typed base) (hid : base.type.shape.struct? = some id)
      (hfields : Γ.fields id = some ts) (ht : ts[index]? = some t) :
      Expr.Typed (.mk (.extract base index) t k span)
  /-- There is one value for each field, in the order of the fields. -/
  | structInit {id : StructId} {values : List Expr} {heap : Bool} {t : Ty} {ts : List Ty}
      {k : Option Const} {span : Span} (hvalues : ∀ value ∈ values, Expr.Typed value)
      (hid : t.shape.struct? = some id) (hfields : Γ.fields id = some ts)
      (hsame : List.Forall₂ (fun value t => value.type.same t) values ts) :
      Expr.Typed (.mk (.structInit id values heap) (madeType heap t) k span)
  | arrayInit {element : Ty} {values : List Expr} {heap : Bool} {t : Ty} {k : Option Const}
      {span : Span} (hvalues : ∀ value ∈ values, Expr.Typed value)
      (hsame : ∀ value ∈ values, value.type.same element)
      (ht : t.shape = .array element false (if heap then none else some values.length)) :
      Expr.Typed (.mk (.arrayInit element values heap) (madeType heap t) k span)
  /-- The size of an array that is not allocated is known. -/
  | arrayFill {element : Ty} {size value : Expr} {heap : Bool} {known : Option Nat} {t : Ty}
      {k : Option Const} {span : Span} (hsize : Expr.Typed size) (hvalue : Expr.Typed value)
      (hsizeType : size.type.shape = .i64) (hsame : value.type.same element)
      (hknown : heap = known.isNone) (ht : t.shape = .array element false known) :
      Expr.Typed (.mk (.arrayFill element size value heap) (madeType heap t) k span)
  | new {value : Expr} {t : Ty} {k : Option Const} {span : Span} (hvalue : Expr.Typed value)
      (hsame : value.type.same t) : Expr.Typed (.mk (.new value) (madeType true t) k span)

/-- A location satisfies the typing rules at every node. -/
inductive Place.Typed : Place → Prop
  | slot {id : LocalId} {t : Ty} {constant : Bool} {span : Span} (hid : Γ.slot id = some t) :
      Place.Typed (.mk (.slot id) t constant span)
  | global {id : GlobalId} {t : Ty} {constant : Bool} {span : Span} (hid : Γ.global id = some t) :
      Place.Typed (.mk (.global id) t constant span)
  | deref {pointer : Expr} {t : Ty} {pointerConstant constant : Bool} {span : Span}
      (hpointer : Expr.Typed pointer)
      (ht : pointer.type.shape.pointee? = some (t, pointerConstant))
      (hsized : t.shape.isUnsizedArray = false) : Place.Typed (.mk (.deref pointer) t constant span)
  | field {base : Expr} {id : StructId} {index : Nat} {target : Ty} {baseConstant : Bool}
      {ts : List Ty} {t : Ty} {constant : Bool} {span : Span} (hbase : Expr.Typed base)
      (htarget : base.type.shape.pointee? = some (target, baseConstant))
      (hid : target.shape.struct? = some id) (hfields : Γ.fields id = some ts)
      (ht : ts[index]? = some t) : Place.Typed (.mk (.field base id index) t constant span)
  | element {data index : Expr} {t : Ty} {constant : Bool} {span : Span} (hdata : Expr.Typed data)
      (hindex : Expr.Typed index) (ht : PointsAtElements data.type.shape t)
      (hindexType : index.type.shape = .i64) :
      Place.Typed (.mk (.element data index) t constant span)

end

variable (returns : Ty)

mutual

/-- A statement of a function that returns values of a type satisfies the typing rules. -/
inductive Stmt.Typed : Stmt → Prop
  | declare {id : LocalId} {value : Option Expr} {t : Ty} {span : Span} {dead : Bool}
      (hid : Γ.slot id = some t) (hvalue : ∀ v, value = some v → Expr.Typed Γ v ∧ v.type.same t) :
      Stmt.Typed (.mk (.declare id value) span dead)
  | assign {target : Place} {value : Expr} {releasePrior : Bool} {span : Span} {dead : Bool}
      (htarget : Place.Typed Γ target) (hwritable : target.constant = false)
      (hvalue : Expr.Typed Γ value) (hsame : value.type.same target.type) :
      Stmt.Typed (.mk (.assign target value releasePrior) span dead)
  | expr {value : Expr} {release : Bool} {span : Span} {dead : Bool} (hvalue : Expr.Typed Γ value) :
      Stmt.Typed (.mk (.expr value release) span dead)
  /-- What is returned without a value is `void`. -/
  | ret {value : Option Expr} {drops : List LocalId} {span : Span} {dead : Bool}
      (hvalue : ∀ v, value = some v → Expr.Typed Γ v ∧ v.type.same returns)
      (hvoid : value = none → returns.shape = .void) : Stmt.Typed (.mk (.ret value drops) span dead)
  | brk {target : LoopId} {drops : List LocalId} {span : Span} {dead : Bool} :
      Stmt.Typed (.mk (.brk target drops) span dead)
  | cont {target : LoopId} {drops : List LocalId} {span : Span} {dead : Bool} :
      Stmt.Typed (.mk (.cont target drops) span dead)
  | cond {branches : List (Expr × Block)} {otherwise : Option Block} {span : Span} {dead : Bool}
      (htests : ∀ branch ∈ branches, Expr.Typed Γ branch.1 ∧ branch.1.type.shape = .bool)
      (hbodies : ∀ branch ∈ branches, Block.Typed branch.2)
      (hotherwise : ∀ b, otherwise = some b → Block.Typed b) :
      Stmt.Typed (.mk (.cond branches otherwise) span dead)
  | loop {id : LoopId} {init : Option Stmt} {condition : Option Expr} {step : Option Stmt}
      {body : Block} {exitDrops : List LocalId} {span : Span} {dead : Bool}
      (hinit : ∀ s, init = some s → Stmt.Typed s)
      (htest : ∀ test, condition = some test → Expr.Typed Γ test ∧ test.type.shape = .bool)
      (hstep : ∀ s, step = some s → Stmt.Typed s) (hbody : Block.Typed body) :
      Stmt.Typed (.mk (.loop id init condition step body exitDrops) span dead)
  | scope {block : Block} {span : Span} {dead : Bool} (hblock : Block.Typed block) :
      Stmt.Typed (.mk (.scope block) span dead)

/-- All statements of a block satisfy the typing rules. -/
inductive Block.Typed : Block → Prop
  | mk {stmts : List Stmt} {drops : List LocalId} (hstmts : ∀ s ∈ stmts, Stmt.Typed s) :
      Block.Typed (.mk stmts drops)

end

end

/-! ## Later environments -/

section

variable {Γ Δ : TypeEnv}

mutual

theorem Expr.Typed.mono (h : Γ.Extends Δ) {e : Expr} : e.Typed Γ → e.Typed Δ
  | .int ht hfits => .int ht hfits
  | .bool ht => .bool ht
  | .str ht => .str ht
  | .load hplace => .load (hplace.mono h)
  | .function hid => .function (h.global _ _ hid)
  | .call hcallee hshape hargs hfixed hothers =>
    .call (hcallee.mono h) hshape (fun arg harg => (hargs arg harg).mono h) hfixed hothers
  | .macroCall hargs => .macroCall fun arg harg => (hargs arg harg).mono h
  | .arithmetic hop hleft hright ht hleftType hrightType =>
    .arithmetic hop (hleft.mono h) (hright.mono h) ht hleftType hrightType
  | .comparison hop hleft hright ht hsame hcomparable =>
    .comparison hop (hleft.mono h) (hright.mono h) ht hsame hcomparable
  | .logical hop hleft hright ht hleftType hrightType =>
    .logical hop (hleft.mono h) (hright.mono h) ht hleftType hrightType
  | .neg he ht => .neg (he.mono h) ht
  | .not he ht => .not (he.mono h) ht
  | .address hplace ht => .address (hplace.mono h) ht
  | .castInt he hsource ht hne => .castInt (he.mono h) hsource ht hne
  | .castPointer he ht => .castPointer (he.mono h) ht
  | .extract hbase hid hfields ht => .extract (hbase.mono h) hid (h.fields _ _ hfields) ht
  | .structInit hvalues hid hfields hsame =>
    .structInit (fun value hvalue => (hvalues value hvalue).mono h) hid (h.fields _ _ hfields) hsame
  | .arrayInit hvalues hsame ht =>
    .arrayInit (fun value hvalue => (hvalues value hvalue).mono h) hsame ht
  | .arrayFill hsize hvalue hsizeType hsame hknown ht =>
    .arrayFill (hsize.mono h) (hvalue.mono h) hsizeType hsame hknown ht
  | .new hvalue hsame => .new (hvalue.mono h) hsame

theorem Place.Typed.mono (h : Γ.Extends Δ) {p : Place} : p.Typed Γ → p.Typed Δ
  | .slot hid => .slot (h.slot _ _ hid)
  | .global hid => .global (h.global _ _ hid)
  | .deref hpointer ht hsized => .deref (hpointer.mono h) ht hsized
  | .field hbase htarget hid hfields ht => .field (hbase.mono h) htarget hid (h.fields _ _ hfields) ht
  | .element hdata hindex ht hindexType => .element (hdata.mono h) (hindex.mono h) ht hindexType

end

variable {returns : Ty}

mutual

theorem Stmt.Typed.mono (h : Γ.Extends Δ) {s : Stmt} : s.Typed Γ returns → s.Typed Δ returns
  | .declare hid hvalue =>
    .declare (h.slot _ _ hid) fun v hv => ⟨(hvalue v hv).1.mono h, (hvalue v hv).2⟩
  | .assign htarget hwritable hvalue hsame =>
    .assign (htarget.mono h) hwritable (hvalue.mono h) hsame
  | .expr hvalue => .expr (hvalue.mono h)
  | .ret hvalue hvoid => .ret (fun v hv => ⟨(hvalue v hv).1.mono h, (hvalue v hv).2⟩) hvoid
  | .brk => .brk
  | .cont => .cont
  | .cond htests hbodies hotherwise =>
    .cond (fun b hb => ⟨(htests b hb).1.mono h, (htests b hb).2⟩) (fun b hb => (hbodies b hb).mono h)
      fun b hb => (hotherwise b hb).mono h
  | .loop hinit htest hstep hbody =>
    .loop (fun s hs => (hinit s hs).mono h) (fun t ht => ⟨(htest t ht).1.mono h, (htest t ht).2⟩)
      (fun s hs => (hstep s hs).mono h) (hbody.mono h)
  | .scope hblock => .scope (hblock.mono h)

theorem Block.Typed.mono (h : Γ.Extends Δ) {b : Block} : b.Typed Γ returns → b.Typed Δ returns
  | .mk hstmts => .mk fun s hs => (hstmts s hs).mono h

end

end

/-- It does not matter for its type whether a statement is reached. -/
theorem Stmt.Typed.flagged {Γ : TypeEnv} {returns : Ty} {s : Stmt} (h : s.Typed Γ returns)
    (dead : Bool) : (s.flagged dead).Typed Γ returns := by
  cases h with
  | declare hid hvalue => exact .declare hid hvalue
  | assign htarget hwritable hvalue hsame => exact .assign htarget hwritable hvalue hsame
  | expr hvalue => exact .expr hvalue
  | ret hvalue hvoid => exact .ret hvalue hvoid
  | brk => exact .brk
  | cont => exact .cont
  | cond htests hbodies hotherwise => exact .cond htests hbodies hotherwise
  | loop hinit htest hstep hbody => exact .loop hinit htest hstep hbody
  | scope hblock => exact .scope hblock

end OwnLang.Core
