import Mathlib
import OwnLang.Proofs.Core.Typing

/-!
# Permission to write in checked trees

A location is constant along the path that names it (`AccessEnv.pathConstant`) if its variable is, or if
the pointer, the field or the array is that the last step goes through. `Expr.Guarded`,
`Place.Guarded` and `Stmt.Guarded` say of a whole tree that no step on the way to a write loses that:
the mark of every location is its constness along its path, what is constant is neither assigned to nor
pointed at by a pointer that may change it, no conversion makes something constant changeable, and no
method that changes its receiver is called on a constant one.

What is known grows while a program is checked, and a tree that was guarded stays guarded
(`Expr.Guarded.mono` and the lemmas beside it).
-/

namespace OwnLang

namespace Shape

/-- Whether what a pointer points at is itself a view through which nothing can be changed, such as a
constant array. -/
def isPointeeConstant (shape : Shape) : Bool := shape.pointee?.any (·.1.shape.isConstant)

/-- What is constant behind one shape, itself or the array that it points at, is constant behind the
other one. -/
structure KeepsConstant (source target : Shape) : Prop where
  view : source.isConstant → target.isConstant
  pointee : source.isPointeeConstant → target.isPointeeConstant

theorem KeepsConstant.refl (shape : Shape) : shape.KeepsConstant shape := ⟨id, id⟩

theorem KeepsConstant.trans {a b c : Shape} (h : a.KeepsConstant b) (h' : b.KeepsConstant c) :
    a.KeepsConstant c := ⟨h'.view ∘ h.view, h'.pointee ∘ h.pointee⟩

/-- Nothing constant is behind an integer. -/
theorem keepsConstant_int {width : Width} {target : Shape} : (int width).KeepsConstant target :=
  ⟨fun h => (Bool.false_ne_true h).elim, fun h => (Bool.false_ne_true h).elim⟩

theorem isConstant_of_pointee {shape : Shape} {target : Ty} {constant : Bool}
    (h : shape.pointee? = some (target, constant)) : shape.isConstant = constant := by
  unfold pointee? at h
  split at h <;> cases h <;> rfl

theorem isPointeeConstant_of_pointee {shape : Shape} {target : Ty} {constant : Bool}
    (h : shape.pointee? = some (target, constant)) :
    shape.isPointeeConstant = target.shape.isConstant := by
  unfold isPointeeConstant
  rw [h]
  rfl

/-- Types that are the same are constant alike. -/
theorem isConstant_same {a b : Shape} (h : a.same b) : a.isConstant = b.isConstant := by
  cases a <;> cases b <;> simp_all [same, isConstant]

theorem isConstant_pointsAlike {s t : Ty} (h : pointsAlike s t) (hs : s.shape.isConstant) :
    t.shape.isConstant := by
  simp only [pointsAlike, Bool.or_eq_true] at h
  obtain (hsame | hviews) | hforgets := h
  · rw [Ty.same_shape] at hsame
    rw [← isConstant_same hsame]
    exact hs
  · unfold viewsArray at hviews
    split at hviews
    · rename_i htarget
      rw [htarget]
      rfl
    · cases hviews
  · unfold forgetsSize at hforgets
    split at hforgets
    · rename_i hsource htarget
      rw [hsource] at hs
      rw [htarget]
      simp only [Bool.and_eq_true, Bool.or_eq_true, Bool.not_eq_true'] at hforgets
      rcases hforgets.2 with hseen | hplain
      · exact hseen
      · cases hplain.symm.trans hs
    · cases hforgets

/-- No conversion of pointers that a program need not write makes something constant changeable. -/
theorem keepsConstant_convertsPointer {source target : Shape} (h : source.convertsPointer target) :
    source.KeepsConstant target := by
  cases source <;> cases target <;>
    simp only [convertsPointer, Bool.and_eq_true, Bool.or_eq_true, Bool.not_eq_true',
      Bool.false_eq_true] at h
  all_goals
    obtain ⟨hconstant, halike⟩ := h
    refine ⟨fun hs => ?_, isConstant_pointsAlike halike⟩
    rcases hconstant with hseen | hplain
    · exact hseen
    · cases hplain.symm.trans hs

theorem keepsConstant_viewsArray {source target : Shape} (h : source.viewsArray target) :
    source.KeepsConstant target := by
  unfold viewsArray at h
  split at h
  · exact ⟨fun _ => rfl, fun hpointee => by cases hpointee⟩
  · cases h

end Shape

namespace Core

open Surface (BinaryOp UnaryOp)

/-- What is known of names that matters for writing. -/
structure AccessEnv where
  /-- Whether a local that is declared is constant. -/
  slot : LocalId → Option Bool
  /-- Whether a variable that is resolved is constant. -/
  global : GlobalId → Option Bool
  /-- Which fields of a complete struct are constant. -/
  fields : StructId → Option (List Bool)
  /-- Whether a function that is resolved is a method that may change its receiver. -/
  mutator : GlobalId → Option Bool

namespace AccessEnv

/-- Everything that is known in one environment is known in the other one. -/
structure Extends (Γ Δ : AccessEnv) : Prop where
  slot : ∀ id b, Γ.slot id = some b → Δ.slot id = some b
  global : ∀ id b, Γ.global id = some b → Δ.global id = some b
  fields : ∀ id bs, Γ.fields id = some bs → Δ.fields id = some bs
  mutator : ∀ id b, Γ.mutator id = some b → Δ.mutator id = some b

theorem Extends.refl (Γ : AccessEnv) : Γ.Extends Γ :=
  ⟨fun _ _ h => h, fun _ _ h => h, fun _ _ h => h, fun _ _ h => h⟩

theorem Extends.trans {Γ Δ Ε : AccessEnv} (h : Γ.Extends Δ) (h' : Δ.Extends Ε) : Γ.Extends Ε where
  slot id b hb := h'.slot id b (h.slot id b hb)
  global id b hb := h'.global id b (h.global id b hb)
  fields id bs hbs := h'.fields id bs (h.fields id bs hbs)
  mutator id b hb := h'.mutator id b (h.mutator id b hb)

/-- Whether a location is constant along its path: a variable if it is declared so, what a pointer
points at if the pointer may not change it, a field if the pointer to its struct may not change it or the
field is constant, an element if the pointer to the array may not change it or the array is constant. -/
def pathConstant (Γ : AccessEnv) : PlaceKind → Option Bool
  | .slot id => Γ.slot id
  | .global id => Γ.global id
  | .deref pointer => some pointer.type.shape.isConstant
  | .field base id index => do return base.type.shape.isConstant || (← (← Γ.fields id)[index]?)
  | .element data _ => some (data.type.shape.isConstant || data.type.shape.isPointeeConstant)

end AccessEnv

/-- A value before the conversions to other views of the same address. -/
def Expr.unconverted : Expr → Expr
  | .mk (.cast e .pointer) _ _ _ => e.unconverted
  | e => e

/-- Nothing constant is changed through a pointer: it may change what it points at, and so may the
pointer that it was converted from, and the location whose address it is. -/
structure Expr.MayChange (e : Expr) : Prop where
  view : e.type.shape.isConstant = false
  origin : e.unconverted.type.shape.isConstant = false
  place : ∀ place, e.unconverted.kind = .address place → place.constant = false

section

variable (Γ : AccessEnv)

/-- A method that may change its receiver gets one that may be changed. -/
def ReceiverGuarded (callee : Expr) (args : List Expr) : Prop :=
  ∀ id this, callee.kind = .function id → Γ.mutator id = some true → args.head? = some this →
    this.MayChange

mutual

/-- All of an expression keeps to what may be written. -/
inductive Expr.Guarded : Expr → Prop
  | mk {kind : ExprKind} {t : Ty} {k : Option Const} {span : Span} (hkind : kind.Guarded t) :
      Expr.Guarded (.mk kind t k span)

/-- The form of an expression of a type keeps to what may be written. -/
inductive ExprKind.Guarded : ExprKind → Ty → Prop
  | int {n : Int} {t : Ty} : ExprKind.Guarded (.int n) t
  | bool {b : Bool} {t : Ty} : ExprKind.Guarded (.bool b) t
  | str {text : String} {t : Ty} : ExprKind.Guarded (.str text) t
  | load {place : Place} {t : Ty} (hplace : place.Guarded) : ExprKind.Guarded (.load place) t
  | function {id : GlobalId} {t : Ty} {b : Bool} (hid : Γ.mutator id = some b) :
      ExprKind.Guarded (.function id) t
  | call {callee : Expr} {args : List Expr} {t : Ty} (hcallee : callee.Guarded)
      (hargs : ∀ arg ∈ args, Expr.Guarded arg) (hreceiver : ReceiverGuarded Γ callee args) :
      ExprKind.Guarded (.call callee args) t
  | macroCall {id : MacroId} {args : List Expr} {t : Ty} (hargs : ∀ arg ∈ args, Expr.Guarded arg) :
      ExprKind.Guarded (.macroCall id args) t
  | binary {op : BinaryOp} {left right : Expr} {t : Ty} (hleft : left.Guarded)
      (hright : right.Guarded) : ExprKind.Guarded (.binary op left right) t
  | unary {op : UnaryOp} {e : Expr} {t : Ty} (he : e.Guarded) : ExprKind.Guarded (.unary op e) t
  /-- A constant location has constant addresses only. -/
  | address {place : Place} {t : Ty} (hplace : place.Guarded)
      (hconstant : place.constant → t.shape.isConstant) : ExprKind.Guarded (.address place) t
  | cast {e : Expr} {how : Cast} {t : Ty} (he : e.Guarded)
      (hkeeps : e.type.shape.KeepsConstant t.shape) : ExprKind.Guarded (.cast e how) t
  | extract {base : Expr} {index : Nat} {t : Ty} (hbase : base.Guarded) :
      ExprKind.Guarded (.extract base index) t
  | structInit {id : StructId} {values : List Expr} {heap : Bool} {t : Ty}
      (hvalues : ∀ value ∈ values, Expr.Guarded value) :
      ExprKind.Guarded (.structInit id values heap) t
  | arrayInit {element : Ty} {values : List Expr} {heap : Bool} {t : Ty}
      (hvalues : ∀ value ∈ values, Expr.Guarded value) :
      ExprKind.Guarded (.arrayInit element values heap) t
  | arrayFill {element : Ty} {size value : Expr} {heap : Bool} {t : Ty} (hsize : size.Guarded)
      (hvalue : value.Guarded) : ExprKind.Guarded (.arrayFill element size value heap) t
  | new {value : Expr} {t : Ty} (hvalue : value.Guarded) : ExprKind.Guarded (.new value) t

/-- All of a location keeps to what may be written, and its mark is its constness. -/
inductive Place.Guarded : Place → Prop
  | mk {kind : PlaceKind} {t : Ty} {constant : Bool} {span : Span} (hkind : kind.Guarded)
      (hconstant : Γ.pathConstant kind = some constant) : Place.Guarded (.mk kind t constant span)

/-- All on the path to a location keeps to what may be written. -/
inductive PlaceKind.Guarded : PlaceKind → Prop
  | slot {id : LocalId} : PlaceKind.Guarded (.slot id)
  | global {id : GlobalId} : PlaceKind.Guarded (.global id)
  | deref {pointer : Expr} (hpointer : pointer.Guarded) : PlaceKind.Guarded (.deref pointer)
  | field {base : Expr} {id : StructId} {index : Nat} (hbase : base.Guarded) :
      PlaceKind.Guarded (.field base id index)
  | element {data index : Expr} (hdata : data.Guarded) (hindex : index.Guarded) :
      PlaceKind.Guarded (.element data index)

end

mutual

/-- All of a statement keeps to what may be written. -/
inductive Stmt.Guarded : Stmt → Prop
  | mk {kind : StmtKind} {span : Span} {dead : Bool} (hkind : kind.Guarded) :
      Stmt.Guarded (.mk kind span dead)

/-- The form of a statement keeps to what may be written. -/
inductive StmtKind.Guarded : StmtKind → Prop
  | declare {id : LocalId} {value : Option Expr} (hvalue : ∀ v, value = some v → v.Guarded Γ) :
      StmtKind.Guarded (.declare id value)
  /-- Nothing constant is assigned to. -/
  | assign {target : Place} {value : Expr} {releasePrior : Bool} (htarget : target.Guarded Γ)
      (hwritable : target.constant = false) (hvalue : value.Guarded Γ) :
      StmtKind.Guarded (.assign target value releasePrior)
  | expr {value : Expr} {release : Bool} (hvalue : value.Guarded Γ) :
      StmtKind.Guarded (.expr value release)
  | ret {value : Option Expr} {drops : List LocalId}
      (hvalue : ∀ v, value = some v → v.Guarded Γ) : StmtKind.Guarded (.ret value drops)
  | brk {target : LoopId} {drops : List LocalId} : StmtKind.Guarded (.brk target drops)
  | cont {target : LoopId} {drops : List LocalId} : StmtKind.Guarded (.cont target drops)
  | cond {branches : List (Expr × Block)} {otherwise : Option Block}
      (htests : ∀ branch ∈ branches, branch.1.Guarded Γ)
      (hbodies : ∀ branch ∈ branches, Block.Guarded branch.2)
      (hotherwise : ∀ b, otherwise = some b → Block.Guarded b) :
      StmtKind.Guarded (.cond branches otherwise)
  | loop {id : LoopId} {init : Option Stmt} {condition : Option Expr} {step : Option Stmt}
      {body : Block} {exitDrops : List LocalId} (hinit : ∀ s, init = some s → Stmt.Guarded s)
      (htest : ∀ test, condition = some test → test.Guarded Γ)
      (hstep : ∀ s, step = some s → Stmt.Guarded s) (hbody : Block.Guarded body) :
      StmtKind.Guarded (.loop id init condition step body exitDrops)
  | scope {block : Block} (hblock : Block.Guarded block) : StmtKind.Guarded (.scope block)

/-- All statements of a block keep to what may be written. -/
inductive Block.Guarded : Block → Prop
  | mk {stmts : List Stmt} {drops : List LocalId} (hstmts : ∀ s ∈ stmts, Stmt.Guarded s) :
      Block.Guarded (.mk stmts drops)

end

end

/-! ## Later environments -/

section

variable {Γ Δ : AccessEnv}

theorem AccessEnv.Extends.pathConstant (h : Γ.Extends Δ) {kind : PlaceKind} {constant : Bool}
    (hconstant : Γ.pathConstant kind = some constant) : Δ.pathConstant kind = some constant := by
  cases kind with
  | slot id => exact h.slot id constant hconstant
  | global id => exact h.global id constant hconstant
  | deref pointer => exact hconstant
  | field base id index =>
    simp only [AccessEnv.pathConstant, Option.bind_eq_bind, Option.bind_eq_some_iff] at hconstant ⊢
    obtain ⟨fields, hfields, hfield⟩ := hconstant
    exact ⟨fields, h.fields id fields hfields, hfield⟩
  | element data index => exact hconstant

/-- What is called in a guarded tree is known. -/
theorem Expr.Guarded.mutator {e : Expr} {id : GlobalId} (h : e.Guarded Γ)
    (hkind : e.kind = .function id) : ∃ b, Γ.mutator id = some b := by
  obtain ⟨hguarded⟩ := h
  cases hkind
  cases hguarded with
  | function hid => exact ⟨_, hid⟩

theorem ReceiverGuarded.mono (h : Γ.Extends Δ) {callee : Expr} {args : List Expr}
    (hcallee : callee.Guarded Γ) (hreceiver : ReceiverGuarded Γ callee args) :
    ReceiverGuarded Δ callee args := by
  intro id this hkind hmutator hthis
  obtain ⟨b, hb⟩ := hcallee.mutator hkind
  cases (h.mutator id b hb).symm.trans hmutator
  exact hreceiver id this hkind hb hthis

mutual

theorem Expr.Guarded.mono (h : Γ.Extends Δ) {e : Expr} : e.Guarded Γ → e.Guarded Δ
  | .mk hkind => .mk (hkind.mono h)

theorem ExprKind.Guarded.mono (h : Γ.Extends Δ) {kind : ExprKind} {t : Ty} :
    kind.Guarded Γ t → kind.Guarded Δ t
  | .int => .int
  | .bool => .bool
  | .str => .str
  | .load hplace => .load (hplace.mono h)
  | .function hid => .function (h.mutator _ _ hid)
  | .call hcallee hargs hreceiver =>
    .call (hcallee.mono h) (fun arg harg => (hargs arg harg).mono h) (hreceiver.mono h hcallee)
  | .macroCall hargs => .macroCall fun arg harg => (hargs arg harg).mono h
  | .binary hleft hright => .binary (hleft.mono h) (hright.mono h)
  | .unary he => .unary (he.mono h)
  | .address hplace hconstant => .address (hplace.mono h) hconstant
  | .cast he hkeeps => .cast (he.mono h) hkeeps
  | .extract hbase => .extract (hbase.mono h)
  | .structInit hvalues => .structInit fun value hvalue => (hvalues value hvalue).mono h
  | .arrayInit hvalues => .arrayInit fun value hvalue => (hvalues value hvalue).mono h
  | .arrayFill hsize hvalue => .arrayFill (hsize.mono h) (hvalue.mono h)
  | .new hvalue => .new (hvalue.mono h)

theorem Place.Guarded.mono (h : Γ.Extends Δ) {p : Place} : p.Guarded Γ → p.Guarded Δ
  | .mk hkind hconstant => .mk (hkind.mono h) (h.pathConstant hconstant)

theorem PlaceKind.Guarded.mono (h : Γ.Extends Δ) {kind : PlaceKind} : kind.Guarded Γ → kind.Guarded Δ
  | .slot => .slot
  | .global => .global
  | .deref hpointer => .deref (hpointer.mono h)
  | .field hbase => .field (hbase.mono h)
  | .element hdata hindex => .element (hdata.mono h) (hindex.mono h)

end

mutual

theorem Stmt.Guarded.mono (h : Γ.Extends Δ) {s : Stmt} : s.Guarded Γ → s.Guarded Δ
  | .mk hkind => .mk (hkind.mono h)

theorem StmtKind.Guarded.mono (h : Γ.Extends Δ) {kind : StmtKind} : kind.Guarded Γ → kind.Guarded Δ
  | .declare hvalue => .declare fun v hv => (hvalue v hv).mono h
  | .assign htarget hwritable hvalue => .assign (htarget.mono h) hwritable (hvalue.mono h)
  | .expr hvalue => .expr (hvalue.mono h)
  | .ret hvalue => .ret fun v hv => (hvalue v hv).mono h
  | .brk => .brk
  | .cont => .cont
  | .cond htests hbodies hotherwise =>
    .cond (fun b hb => (htests b hb).mono h) (fun b hb => (hbodies b hb).mono h)
      fun b hb => (hotherwise b hb).mono h
  | .loop hinit htest hstep hbody =>
    .loop (fun s hs => (hinit s hs).mono h) (fun t ht => (htest t ht).mono h)
      (fun s hs => (hstep s hs).mono h) (hbody.mono h)
  | .scope hblock => .scope (hblock.mono h)

theorem Block.Guarded.mono (h : Γ.Extends Δ) {b : Block} : b.Guarded Γ → b.Guarded Δ
  | .mk hstmts => .mk fun s hs => (hstmts s hs).mono h

end

/-! ## Parts of guarded trees -/

theorem Expr.Guarded.kind {e : Expr} : e.Guarded Γ → e.kind.Guarded Γ e.type
  | .mk hkind => hkind

theorem Stmt.Guarded.kind {s : Stmt} : s.Guarded Γ → s.kind.Guarded Γ
  | .mk hkind => hkind

theorem Expr.Guarded.unconverted {e : Expr} (h : e.Guarded Γ) :
    e.unconverted.Guarded Γ ∧ e.unconverted.type.shape.KeepsConstant e.type.shape := by
  fun_induction Expr.unconverted e with
  | case1 e t k span ih =>
    cases h.kind with
    | cast he hkeeps => exact ⟨(ih he).1, (ih he).2.trans hkeeps⟩
  | case2 e => exact ⟨h, .refl _⟩

/-- Since no conversion makes something constant changeable, a pointer that may change what it points
at is no view of something constant. -/
theorem Expr.Guarded.mayChange {e : Expr} (h : e.Guarded Γ)
    (hview : e.type.shape.isConstant = false) : e.MayChange := by
  obtain ⟨horigin, hkeeps⟩ := h.unconverted
  have horiginView : e.unconverted.type.shape.isConstant = false :=
    Bool.eq_false_iff.mpr fun hconstant => Bool.eq_false_iff.mp hview (hkeeps.view hconstant)
  refine ⟨hview, horiginView, fun place hplace => Bool.eq_false_iff.mpr fun hconstant => ?_⟩
  have hkind := horigin.kind
  rw [hplace] at hkind
  cases hkind with
  | address _ haddress => exact Bool.eq_false_iff.mp horiginView (haddress hconstant)

/-- It does not matter whether a statement is reached. -/
theorem Stmt.Guarded.flagged {s : Stmt} (h : s.Guarded Γ) (dead : Bool) : (s.flagged dead).Guarded Γ :=
  .mk h.kind

end

end Core

end OwnLang
