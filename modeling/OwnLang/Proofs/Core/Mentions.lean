import Mathlib
import OwnLang.Check.Basic

/-!
# Mentioned structs

Types name structs by their identities, and trees, entities and frames hold types. `Mentions` tells
which structs something mentions, and a context `Knows` it if it has declared all of them. What a
context knows, every context knows that has declared more.
-/

namespace OwnLang

/-- Data that may mention structs. -/
class Mentions (α : Type) where
  structs : α → List StructId

/-- A context has declared the structs that something mentions. -/
def Context.Knows {α : Type} [Mentions α] (c : Context) (a : α) : Prop :=
  ∀ id ∈ Mentions.structs a, id.index < c.structs.size

/-! ## Types and trees -/

mutual

/-- The structs that a type mentions. -/
def Ty.structs : Ty → List StructId
  | .mk shape _ => shape.structs

/-- The structs that the form of a type mentions. -/
def Shape.structs : Shape → List StructId
  | .int _ | .bool | .void => []
  | .func params _ returns => Ty.structsOf params ++ returns.structs
  | .owner target _ | .shared target _ => target.structs
  | .array element _ _ => element.structs
  | .struct id _ => [id]

/-- The structs that types mention. -/
def Ty.structsOf : List Ty → List StructId
  | [] => []
  | t :: rest => t.structs ++ Ty.structsOf rest

end

namespace Core

mutual

/-- The structs that a value mentions. -/
def Expr.structs : Expr → List StructId
  | .mk kind type _ _ => kind.structs ++ type.structs

/-- The structs that the form of a value mentions. -/
def ExprKind.structs : ExprKind → List StructId
  | .int _ | .bool _ | .str _ | .function _ => []
  | .load place | .address place => place.structs
  | .call callee args => callee.structs ++ Expr.structsOf args
  | .macroCall _ args => Expr.structsOf args
  | .binary _ left right => left.structs ++ right.structs
  | .unary _ value | .cast value _ | .extract value _ | .new value => value.structs
  | .structInit id values _ => id :: Expr.structsOf values
  | .arrayInit element values _ => element.structs ++ Expr.structsOf values
  | .arrayFill element size value _ => element.structs ++ (size.structs ++ value.structs)

/-- The structs that values mention. -/
def Expr.structsOf : List Expr → List StructId
  | [] => []
  | e :: rest => e.structs ++ Expr.structsOf rest

/-- The structs that a location mentions. -/
def Place.structs : Place → List StructId
  | .mk kind type _ _ => kind.structs ++ type.structs

/-- The structs that the form of a location mentions. -/
def PlaceKind.structs : PlaceKind → List StructId
  | .slot _ | .global _ => []
  | .deref pointer => pointer.structs
  | .field base id _ => id :: base.structs
  | .element data index => data.structs ++ index.structs

end

/-- The structs that a value mentions, if there is one. -/
def Expr.structsOfOption : Option Expr → List StructId
  | none => []
  | some e => e.structs

mutual

/-- The structs that a statement mentions. -/
def Stmt.structs : Stmt → List StructId
  | .mk kind _ _ => kind.structs

/-- The structs that the form of a statement mentions. -/
def StmtKind.structs : StmtKind → List StructId
  | .declare _ value | .ret value _ => Expr.structsOfOption value
  | .assign target value _ => target.structs ++ value.structs
  | .expr value _ => value.structs
  | .brk .. | .cont .. => []
  | .cond branches otherwise => Block.structsOfBranches branches ++ Block.structsOfOption otherwise
  | .loop _ init condition step body _ =>
    Stmt.structsOfOption init ++ (Expr.structsOfOption condition ++
      (Stmt.structsOfOption step ++ body.structs))
  | .scope block => block.structs

/-- The structs that a block mentions. -/
def Block.structs : Block → List StructId
  | .mk stmts _ => Stmt.structsOf stmts

/-- The structs that statements mention. -/
def Stmt.structsOf : List Stmt → List StructId
  | [] => []
  | s :: rest => s.structs ++ Stmt.structsOf rest

/-- The structs that branches mention. -/
def Block.structsOfBranches : List (Expr × Block) → List StructId
  | [] => []
  | (condition, body) :: rest => condition.structs ++ (body.structs ++ Block.structsOfBranches rest)

/-- The structs that a statement mentions, if there is one. -/
def Stmt.structsOfOption : Option Stmt → List StructId
  | none => []
  | some s => s.structs

/-- The structs that a block mentions, if there is one. -/
def Block.structsOfOption : Option Block → List StructId
  | none => []
  | some b => b.structs

end

end Core

instance : Mentions Ty := ⟨Ty.structs⟩
instance : Mentions Shape := ⟨Shape.structs⟩
instance : Mentions Core.Expr := ⟨Core.Expr.structs⟩
instance : Mentions Core.ExprKind := ⟨Core.ExprKind.structs⟩
instance : Mentions Core.Place := ⟨Core.Place.structs⟩
instance : Mentions Core.PlaceKind := ⟨Core.PlaceKind.structs⟩
instance : Mentions Core.Stmt := ⟨Core.Stmt.structs⟩
instance : Mentions Core.StmtKind := ⟨Core.StmtKind.structs⟩
instance : Mentions Core.Block := ⟨Core.Block.structs⟩
instance : Mentions StructId := ⟨fun id => [id]⟩
instance {α : Type} [Mentions α] : Mentions (List α) := ⟨fun l => l.flatMap Mentions.structs⟩
instance {α : Type} [Mentions α] : Mentions (Option α) := ⟨fun o => o.elim [] Mentions.structs⟩
instance {α β : Type} [Mentions α] [Mentions β] : Mentions (α × β) :=
  ⟨fun p => Mentions.structs p.1 ++ Mentions.structs p.2⟩

/-- Data that mentions no struct. -/
class Plain (α : Type) extends Mentions α where
  structs _ := []
  plain : ∀ a, structs a = [] := by intro; rfl

instance : Plain Unit where
instance : Plain Bool where
instance : Plain Nat where
instance : Plain String where
instance : Plain Const where
instance : Plain GlobalId where
instance : Plain LocalId where
instance : Plain MacroId where
instance : Plain LoopId where
instance : Plain Surface.Ident where
instance : Plain BlockFrame where

/-! ## What checking passes on -/

instance : Mentions Denoted where
  structs
    | .place place => place.structs
    | .value value => value.structs

instance : Mentions Check.Elements where
  structs elements := elements.data.structs ++ elements.element.structs

instance : Mentions Check.Receiver where
  structs
    | .pointer value _ | .temporary value => value.structs

instance : Mentions Check.Referent where
  structs
    | .slot _ | .global _ => []
    | .field _ id _ => [id]

instance : Plain Check.MemberKind where

instance : Mentions Check.FieldValue := ⟨fun written => written.value.structs⟩

instance : Plain Check.Branching where

instance : Mentions Check.CheckedLoop where
  structs loop := Mentions.structs (loop.init, loop.condition, loop.step, loop.body)

instance : Mentions Scope := ⟨fun scope => Mentions.structs scope.bindings⟩

instance : Mentions Query where
  structs
    | .value _ expected scope => Mentions.structs (expected, scope)
    | .denoted _ _ scope | .type _ scope | .stmt _ scope | .block _ scope => Mentions.structs scope
    | .typeAlias .. | .layout .. | .global .. => []

instance (q : Query) : Mentions q.Answer :=
  match q with
  | .value .. => inferInstanceAs (Mentions Core.Expr)
  | .denoted .. => inferInstanceAs (Mentions Denoted)
  | .type .. | .typeAlias .. | .global .. => inferInstanceAs (Mentions Ty)
  | .layout .. => inferInstanceAs (Mentions Unit)
  | .stmt .. => inferInstanceAs (Mentions Core.Stmt)
  | .block .. => inferInstanceAs (Mentions (Core.Block × BlockFrame))

/-! ## Entities -/

instance : Mentions Member where
  structs
    | .struct id => [id]
    | .global _ | .typeAlias _ | .template _ => []

instance : Mentions Entity where
  structs
    | .struct id => [id]
    | .global _ => []

instance : Mentions Field := ⟨fun field => Mentions.structs (field.type, field.default)⟩

instance : Mentions MacroParam := ⟨fun param => param.type.structs⟩

instance : Mentions GlobalKind where
  structs
    | .function _ owner => Mentions.structs owner
    | .storage _ => []

instance : Mentions Global := ⟨fun g => Mentions.structs (g.kind, g.scope, g.type)⟩

instance : Mentions StructDef := ⟨fun d => Mentions.structs (d.scope, d.fields)⟩

instance : Mentions AliasDef := ⟨fun a => Mentions.structs (a.scope, a.resolved)⟩

instance : Mentions MacroDef := ⟨fun m => Mentions.structs (m.scope, m.params, m.returns)⟩

instance : Mentions Package := ⟨fun p => Mentions.structs p.members⟩

instance : Mentions Instance := ⟨fun made => Mentions.structs made.entity⟩

instance : Mentions TemplateDef := ⟨fun t => Mentions.structs t.instances⟩

instance : Mentions Local := ⟨fun l => l.type.structs⟩

instance : Mentions Frame where
  structs f := Mentions.structs (f.locals.toList, f.returns, f.receiver)

instance : Mentions Body where
  structs body := Mentions.structs (body.locals.toList, body.block, body.returns)

/-! ## What a context knows -/

theorem Ty.structsOf_eq_flatMap (types : List Ty) : Ty.structsOf types = types.flatMap Ty.structs := by
  induction types with
  | nil => rfl
  | cons t rest ih => rw [Ty.structsOf, ih, List.flatMap_cons]

theorem Core.Expr.structsOf_eq_flatMap (values : List Core.Expr) :
    Core.Expr.structsOf values = values.flatMap Core.Expr.structs := by
  induction values with
  | nil => rfl
  | cons e rest ih => rw [Core.Expr.structsOf, ih, List.flatMap_cons]

theorem Core.Stmt.structsOf_eq_flatMap (stmts : List Core.Stmt) :
    Core.Stmt.structsOf stmts = stmts.flatMap Core.Stmt.structs := by
  induction stmts with
  | nil => rfl
  | cons s rest ih => rw [Core.Stmt.structsOf, ih, List.flatMap_cons]

theorem Core.Block.structsOfBranches_eq_flatMap (branches : List (Core.Expr × Core.Block)) :
    Core.Block.structsOfBranches branches = branches.flatMap Mentions.structs := by
  induction branches with
  | nil => rfl
  | cons branch rest ih =>
    rw [Core.Block.structsOfBranches, ih, List.flatMap_cons, ← List.append_assoc]
    rfl

namespace Context

variable {c d : Context} {α β : Type} [Mentions α] [Mentions β]

theorem Knows.mono {a : α} (h : c.Knows a) (hsize : c.structs.size ≤ d.structs.size) : d.Knows a :=
  fun id hid => (h id hid).trans_le hsize

theorem knows_of_eq {a : α} {b : β} (h : Mentions.structs a = Mentions.structs b) :
    c.Knows a ↔ c.Knows b := by
  unfold Knows
  rw [h]

theorem knows_of_nil {a : α} (h : Mentions.structs a = []) : c.Knows a := by
  intro id hid
  rw [h] at hid
  cases hid

@[simp] theorem knows_plain {γ : Type} [Plain γ] (a : γ) : c.Knows a := knows_of_nil (Plain.plain a)

@[simp] theorem knows_pair {a : α} {b : β} : c.Knows (a, b) ↔ c.Knows a ∧ c.Knows b :=
  List.forall_mem_append

theorem knows_list {l : List α} : c.Knows l ↔ ∀ a ∈ l, c.Knows a := List.forall_mem_flatMap

@[simp] theorem knows_nil : c.Knows ([] : List α) := by rintro _ ⟨⟩

@[simp] theorem knows_cons {a : α} {l : List α} : c.Knows (a :: l) ↔ c.Knows a ∧ c.Knows l := by
  simp [knows_list]

@[simp] theorem knows_append {l l' : List α} : c.Knows (l ++ l') ↔ c.Knows l ∧ c.Knows l' := by
  simp [knows_list, or_imp, forall_and]

@[simp] theorem knows_none : c.Knows (none : Option α) := by rintro _ ⟨⟩

@[simp] theorem knows_some {a : α} : c.Knows (some a) ↔ c.Knows a := Iff.rfl

theorem knows_option {o : Option α} : c.Knows o ↔ ∀ a, o = some a → c.Knows a := by
  cases o <;> simp

@[simp] theorem knows_structId {id : StructId} : c.Knows id ↔ id.index < c.structs.size :=
  List.forall_mem_singleton

/-! ### Types -/

@[simp] theorem knows_ty {shape : Shape} {name : Option String} :
    c.Knows (Ty.mk shape name) ↔ c.Knows shape := Iff.rfl

@[simp] theorem knows_shape {t : Ty} : c.Knows t.shape ↔ c.Knows t := by cases t; rfl

@[simp] theorem knows_shapePlain {shape : Shape} : c.Knows shape.plain ↔ c.Knows shape := Iff.rfl

@[simp] theorem knows_int {width : Width} : c.Knows (Shape.int width) := by rintro _ ⟨⟩

@[simp] theorem knows_bool : c.Knows Shape.bool := by rintro _ ⟨⟩

@[simp] theorem knows_void : c.Knows Shape.void := by rintro _ ⟨⟩

@[simp] theorem knows_func {params : List Ty} {variadic : Bool} {returns : Ty} :
    c.Knows (Shape.func params variadic returns) ↔ c.Knows params ∧ c.Knows returns := by
  rw [← knows_pair]
  refine knows_of_eq ?_
  show Ty.structsOf params ++ _ = _
  rw [Ty.structsOf_eq_flatMap]
  rfl

@[simp] theorem knows_owner {target : Ty} {constant : Bool} :
    c.Knows (Shape.owner target constant) ↔ c.Knows target := Iff.rfl

@[simp] theorem knows_shared {target : Ty} {constant : Bool} :
    c.Knows (Shape.shared target constant) ↔ c.Knows target := Iff.rfl

@[simp] theorem knows_array {element : Ty} {constant : Bool} {size : Option Nat} :
    c.Knows (Shape.array element constant size) ↔ c.Knows element := Iff.rfl

@[simp] theorem knows_struct {id : StructId} {name : String} :
    c.Knows (Shape.struct id name) ↔ id.index < c.structs.size := List.forall_mem_singleton

/-! ### Values and locations -/

@[simp] theorem knows_expr {kind : Core.ExprKind} {type : Ty} {constant : Option Const} {span : Span} :
    c.Knows (Core.Expr.mk kind type constant span) ↔ c.Knows kind ∧ c.Knows type :=
  List.forall_mem_append

@[simp] theorem knows_computed {kind : Core.ExprKind} {type : Ty} {span : Span} :
    c.Knows (Core.Expr.computed kind type span) ↔ c.Knows kind ∧ c.Knows type := knows_expr

@[simp] theorem knows_ofConst {kind : Core.ExprKind} {type : Ty} {constant : Const} {span : Span} :
    c.Knows (Core.Expr.ofConst kind type constant span) ↔ c.Knows kind ∧ c.Knows type := knows_expr

theorem Knows.type {e : Core.Expr} (h : c.Knows e) : c.Knows e.type := by
  cases e
  exact (knows_expr.mp h).2

@[simp] theorem knows_literalInt {n : Int} : c.Knows (Core.ExprKind.int n) := by rintro _ ⟨⟩

@[simp] theorem knows_literalBool {b : Bool} : c.Knows (Core.ExprKind.bool b) := by rintro _ ⟨⟩

@[simp] theorem knows_literalText {text : String} : c.Knows (Core.ExprKind.str text) := by rintro _ ⟨⟩

@[simp] theorem knows_function {id : GlobalId} : c.Knows (Core.ExprKind.function id) := by rintro _ ⟨⟩

@[simp] theorem knows_load {place : Core.Place} :
    c.Knows (Core.ExprKind.load place) ↔ c.Knows place := Iff.rfl

@[simp] theorem knows_address {place : Core.Place} :
    c.Knows (Core.ExprKind.address place) ↔ c.Knows place := Iff.rfl

@[simp] theorem knows_call {callee : Core.Expr} {args : List Core.Expr} :
    c.Knows (Core.ExprKind.call callee args) ↔ c.Knows callee ∧ c.Knows args := by
  rw [← knows_pair]
  refine knows_of_eq ?_
  show _ ++ Core.Expr.structsOf args = _
  rw [Core.Expr.structsOf_eq_flatMap]
  rfl

@[simp] theorem knows_macroCall {id : MacroId} {args : List Core.Expr} :
    c.Knows (Core.ExprKind.macroCall id args) ↔ c.Knows args := 
  knows_of_eq (Core.Expr.structsOf_eq_flatMap args)

@[simp] theorem knows_binary {op : Surface.BinaryOp} {left right : Core.Expr} :
    c.Knows (Core.ExprKind.binary op left right) ↔ c.Knows left ∧ c.Knows right :=
  List.forall_mem_append

@[simp] theorem knows_unary {op : Surface.UnaryOp} {operand : Core.Expr} :
    c.Knows (Core.ExprKind.unary op operand) ↔ c.Knows operand := Iff.rfl

@[simp] theorem knows_cast {value : Core.Expr} {how : Core.Cast} :
    c.Knows (Core.ExprKind.cast value how) ↔ c.Knows value := Iff.rfl

@[simp] theorem knows_extract {base : Core.Expr} {index : Nat} :
    c.Knows (Core.ExprKind.extract base index) ↔ c.Knows base := Iff.rfl

@[simp] theorem knows_structInit {id : StructId} {values : List Core.Expr} {heap : Bool} :
    c.Knows (Core.ExprKind.structInit id values heap) ↔
      id.index < c.structs.size ∧ c.Knows values := by
  rw [← knows_structId, ← knows_pair]
  refine knows_of_eq ?_
  show _ :: Core.Expr.structsOf values = _
  rw [Core.Expr.structsOf_eq_flatMap]
  rfl

@[simp] theorem knows_arrayInit {element : Ty} {values : List Core.Expr} {heap : Bool} :
    c.Knows (Core.ExprKind.arrayInit element values heap) ↔ c.Knows element ∧ c.Knows values := by
  rw [← knows_pair]
  refine knows_of_eq ?_
  show _ ++ Core.Expr.structsOf values = _
  rw [Core.Expr.structsOf_eq_flatMap]
  rfl

@[simp] theorem knows_arrayFill {element : Ty} {size value : Core.Expr} {heap : Bool} :
    c.Knows (Core.ExprKind.arrayFill element size value heap) ↔
      c.Knows element ∧ c.Knows size ∧ c.Knows value := by
  rw [← knows_pair, ← knows_pair]
  rfl

@[simp] theorem knows_new {value : Core.Expr} :
    c.Knows (Core.ExprKind.new value) ↔ c.Knows value := Iff.rfl

@[simp] theorem knows_place {kind : Core.PlaceKind} {type : Ty} {constant : Bool} {span : Span} :
    c.Knows (Core.Place.mk kind type constant span) ↔ c.Knows kind ∧ c.Knows type :=
  List.forall_mem_append

theorem Knows.placeType {place : Core.Place} (h : c.Knows place) : c.Knows place.type := by
  cases place
  exact (knows_place.mp h).2

@[simp] theorem knows_slot {id : LocalId} : c.Knows (Core.PlaceKind.slot id) := by rintro _ ⟨⟩

@[simp] theorem knows_global {id : GlobalId} : c.Knows (Core.PlaceKind.global id) := by rintro _ ⟨⟩

@[simp] theorem knows_deref {pointer : Core.Expr} :
    c.Knows (Core.PlaceKind.deref pointer) ↔ c.Knows pointer := Iff.rfl

@[simp] theorem knows_field {base : Core.Expr} {id : StructId} {index : Nat} :
    c.Knows (Core.PlaceKind.field base id index) ↔ id.index < c.structs.size ∧ c.Knows base := by
  rw [← knows_structId, ← knows_pair]
  rfl

@[simp] theorem knows_element {data index : Core.Expr} :
    c.Knows (Core.PlaceKind.element data index) ↔ c.Knows data ∧ c.Knows index :=
  List.forall_mem_append

/-! ### Statements -/

theorem structsOfOption_eq (o : Option Core.Expr) : Core.Expr.structsOfOption o = Mentions.structs o := by
  cases o <;> rfl

theorem structsOfOptionalStmt_eq (o : Option Core.Stmt) :
    Core.Stmt.structsOfOption o = Mentions.structs o := by
  cases o <;> rfl

theorem structsOfOptionalBlock_eq (o : Option Core.Block) :
    Core.Block.structsOfOption o = Mentions.structs o := by
  cases o <;> rfl

@[simp] theorem knows_stmt {kind : Core.StmtKind} {span : Span} {unreachable : Bool} :
    c.Knows (Core.Stmt.mk kind span unreachable) ↔ c.Knows kind := Iff.rfl

@[simp] theorem knows_flagged {s : Core.Stmt} {unreachable : Bool} :
    c.Knows (s.flagged unreachable) ↔ c.Knows s := by cases s; rfl

@[simp] theorem knows_declare {id : LocalId} {value : Option Core.Expr} :
    c.Knows (Core.StmtKind.declare id value) ↔ c.Knows value := knows_of_eq (structsOfOption_eq value)

@[simp] theorem knows_assign {target : Core.Place} {value : Core.Expr} {releasePrior : Bool} :
    c.Knows (Core.StmtKind.assign target value releasePrior) ↔ c.Knows target ∧ c.Knows value :=
  List.forall_mem_append

@[simp] theorem knows_exprStmt {value : Core.Expr} {release : Bool} :
    c.Knows (Core.StmtKind.expr value release) ↔ c.Knows value := Iff.rfl

@[simp] theorem knows_ret {value : Option Core.Expr} {drops : List LocalId} :
    c.Knows (Core.StmtKind.ret value drops) ↔ c.Knows value := knows_of_eq (structsOfOption_eq value)

@[simp] theorem knows_brk {target : LoopId} {drops : List LocalId} :
    c.Knows (Core.StmtKind.brk target drops) := by rintro _ ⟨⟩

@[simp] theorem knows_cont {target : LoopId} {drops : List LocalId} :
    c.Knows (Core.StmtKind.cont target drops) := by rintro _ ⟨⟩

@[simp] theorem knows_cond {branches : List (Core.Expr × Core.Block)} {otherwise : Option Core.Block} :
    c.Knows (Core.StmtKind.cond branches otherwise) ↔ c.Knows branches ∧ c.Knows otherwise := by
  rw [← knows_pair]
  refine knows_of_eq ?_
  show Core.Block.structsOfBranches branches ++ Core.Block.structsOfOption otherwise = _
  rw [Core.Block.structsOfBranches_eq_flatMap, structsOfOptionalBlock_eq]
  rfl

@[simp] theorem knows_loop {id : LoopId} {init step : Option Core.Stmt}
    {condition : Option Core.Expr} {body : Core.Block} {exitDrops : List LocalId} :
    c.Knows (Core.StmtKind.loop id init condition step body exitDrops) ↔
      c.Knows init ∧ c.Knows condition ∧ c.Knows step ∧ c.Knows body := by
  rw [← knows_pair, ← knows_pair, ← knows_pair]
  refine knows_of_eq ?_
  show Core.Stmt.structsOfOption init ++ (Core.Expr.structsOfOption condition ++
    (Core.Stmt.structsOfOption step ++ body.structs)) = _
  rw [structsOfOptionalStmt_eq, structsOfOptionalStmt_eq, structsOfOption_eq]
  rfl

@[simp] theorem knows_scopeStmt {block : Core.Block} :
    c.Knows (Core.StmtKind.scope block) ↔ c.Knows block := Iff.rfl

@[simp] theorem knows_block {stmts : List Core.Stmt} {drops : List LocalId} :
    c.Knows (Core.Block.mk stmts drops) ↔ c.Knows stmts := 
  knows_of_eq (Core.Stmt.structsOf_eq_flatMap stmts)

/-! ### What checking passes on -/

@[simp] theorem knows_denotedPlace {place : Core.Place} :
    c.Knows (Denoted.place place) ↔ c.Knows place := Iff.rfl

@[simp] theorem knows_denotedValue {value : Core.Expr} :
    c.Knows (Denoted.value value) ↔ c.Knows value := Iff.rfl

@[simp] theorem knows_elements {data : Core.Expr} {element : Ty} {constant : Bool} :
    c.Knows (Check.Elements.mk data element constant) ↔ c.Knows data ∧ c.Knows element :=
  List.forall_mem_append

@[simp] theorem knows_receiverPointer {value : Core.Expr} {constant : Bool} :
    c.Knows (Check.Receiver.pointer value constant) ↔ c.Knows value := Iff.rfl

@[simp] theorem knows_receiverTemporary {value : Core.Expr} :
    c.Knows (Check.Receiver.temporary value) ↔ c.Knows value := Iff.rfl

@[simp] theorem knows_referentSlot {id : LocalId} : c.Knows (Check.Referent.slot id) := by rintro _ ⟨⟩

@[simp] theorem knows_referentGlobal {id : GlobalId} : c.Knows (Check.Referent.global id) := by rintro _ ⟨⟩

@[simp] theorem knows_referentField {this : LocalId} {id : StructId} {index : Nat} :
    c.Knows (Check.Referent.field this id index) ↔ id.index < c.structs.size :=
  List.forall_mem_singleton

@[simp] theorem knows_fieldValue {index : Nat} {value : Core.Expr} {span : Span} :
    c.Knows (Check.FieldValue.mk index value span) ↔ c.Knows value := Iff.rfl

theorem knows_checkedLoop {loop : Check.CheckedLoop} : c.Knows loop ↔
    c.Knows loop.init ∧ c.Knows loop.condition ∧ c.Knows loop.step ∧ c.Knows loop.body := by
  rw [← knows_pair, ← knows_pair, ← knows_pair]
  rfl

theorem knows_scope {scope : Scope} : c.Knows scope ↔ c.Knows scope.bindings := Iff.rfl

@[simp] theorem knows_queryValue {e : Surface.Expr} {expected : Option Ty} {scope : Scope} :
    c.Knows (Query.value e expected scope) ↔ c.Knows expected ∧ c.Knows scope := knows_pair

@[simp] theorem knows_queryDenoted {e : Surface.Expr} {write : Bool} {scope : Scope} :
    c.Knows (Query.denoted e write scope) ↔ c.Knows scope := Iff.rfl

@[simp] theorem knows_queryType {t : Surface.TypeExpr} {scope : Scope} :
    c.Knows (Query.type t scope) ↔ c.Knows scope := Iff.rfl

@[simp] theorem knows_queryAlias {id : AliasId} {usedAt : Span} :
    c.Knows (Query.typeAlias id usedAt) := by rintro _ ⟨⟩

@[simp] theorem knows_queryLayout {id : StructId} {usedAt : Span} :
    c.Knows (Query.layout id usedAt) := by rintro _ ⟨⟩

@[simp] theorem knows_queryGlobal {id : GlobalId} {usedAt : Span} :
    c.Knows (Query.global id usedAt) := by rintro _ ⟨⟩

@[simp] theorem knows_queryStmt {s : Surface.Stmt} {scope : Scope} :
    c.Knows (Query.stmt s scope) ↔ c.Knows scope := Iff.rfl

@[simp] theorem knows_queryBlock {b : Surface.Block} {scope : Scope} :
    c.Knows (Query.block b scope) ↔ c.Knows scope := Iff.rfl

/-! ### Entities -/

@[simp] theorem knows_memberStruct {id : StructId} :
    c.Knows (Member.struct id) ↔ id.index < c.structs.size := List.forall_mem_singleton

@[simp] theorem knows_memberGlobal {id : GlobalId} : c.Knows (Member.global id) := by rintro _ ⟨⟩

@[simp] theorem knows_memberAlias {id : AliasId} : c.Knows (Member.typeAlias id) := by rintro _ ⟨⟩

@[simp] theorem knows_memberTemplate {id : TemplateId} : c.Knows (Member.template id) := by
  rintro _ ⟨⟩

@[simp] theorem knows_entityStruct {id : StructId} :
    c.Knows (Entity.struct id) ↔ id.index < c.structs.size := List.forall_mem_singleton

@[simp] theorem knows_entityGlobal {id : GlobalId} : c.Knows (Entity.global id) := by rintro _ ⟨⟩

theorem knows_fieldDef {field : Field} :
    c.Knows field ↔ c.Knows field.type ∧ c.Knows field.default := knows_pair

theorem knows_globalDef {g : Global} :
    c.Knows g ↔ c.Knows g.kind ∧ c.Knows g.scope ∧ c.Knows g.type := by
  rw [← knows_pair, ← knows_pair]
  rfl

@[simp] theorem knows_functionKind {decl : Surface.FnDecl} {owner : Option StructId} :
    c.Knows (GlobalKind.function decl owner) ↔ c.Knows owner := Iff.rfl

@[simp] theorem knows_storageKind {decl : Surface.VarDecl} :
    c.Knows (GlobalKind.storage decl) := by rintro _ ⟨⟩

theorem knows_structDef {s : StructDef} : c.Knows s ↔ c.Knows s.scope ∧ c.Knows s.fields :=
  knows_pair

theorem knows_aliasDef {a : AliasDef} : c.Knows a ↔ c.Knows a.scope ∧ c.Knows a.resolved :=
  knows_pair

theorem knows_macroParam {param : MacroParam} : c.Knows param ↔ c.Knows param.type := Iff.rfl

theorem knows_macroDef {m : MacroDef} :
    c.Knows m ↔ c.Knows m.scope ∧ c.Knows m.params ∧ c.Knows m.returns := by
  rw [← knows_pair, ← knows_pair]
  rfl

theorem knows_frame {f : Frame} :
    c.Knows f ↔ c.Knows f.locals.toList ∧ c.Knows f.returns ∧ c.Knows f.receiver := by
  rw [← knows_pair, ← knows_pair]
  rfl

theorem knows_local {l : Local} : c.Knows l ↔ c.Knows l.type := Iff.rfl

theorem knows_body {body : Body} :
    c.Knows body ↔ c.Knows body.locals.toList ∧ c.Knows body.block ∧ c.Knows body.returns := by
  rw [← knows_pair, ← knows_pair]
  rfl

end Context

end OwnLang
