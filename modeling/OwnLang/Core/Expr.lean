import OwnLang.Entity.Id
import OwnLang.Source.Span
import OwnLang.Surface.Expr
import OwnLang.Ty.Const

/-!
# Checked expressions

What the checker makes of expressions: every node has its type, conversions are explicit, and names
are replaced by what they refer to. A `Place` is a location that can be read, written or pointed
at; an expression has a value.
-/

namespace OwnLang.Core

open Surface (BinaryOp UnaryOp)

/-- Conversions that a program need not write. -/
inductive Cast where
  /-- Another view of the same address. -/
  | pointer
  /-- Between integer widths: sign extension or truncation. -/
  | int (source target : Width)
deriving DecidableEq, Inhabited

mutual

/-- A value: its form, type, place, and what is known of it when compiling. -/
inductive Expr where
  | mk (kind : ExprKind) (type : Ty) (constant : Option Const) (span : Span)

/-- The forms of values. -/
inductive ExprKind where
  | int (value : Int)
  | bool (value : Bool)
  | str (text : String)
  | load (place : Place)
  | function (id : GlobalId)
  | call (callee : Expr) (args : List Expr)
  | macroCall (id : MacroId) (args : List Expr)
  | binary (op : BinaryOp) (left right : Expr)
  | unary (op : UnaryOp) (operand : Expr)
  | address (place : Place)
  | cast (value : Expr) (how : Cast)
  /-- Field `index` of a struct that is stored nowhere. -/
  | extract (base : Expr) (index : Nat)
  | structInit (id : StructId) (values : List Expr) (heap : Bool)
  | arrayInit (element : Ty) (values : List Expr) (heap : Bool)
  | arrayFill (element : Ty) (size value : Expr) (heap : Bool)
  | new (value : Expr)

/-- A location: its form and type, whether it may not be written, and where it was named. -/
inductive Place where
  | mk (kind : PlaceKind) (type : Ty) (constant : Bool) (span : Span)

/-- The forms of locations. -/
inductive PlaceKind where
  | slot (id : LocalId)
  | global (id : GlobalId)
  /-- What a pointer points at. -/
  | deref (pointer : Expr)
  /-- Field `index` of the struct that `base` points at. -/
  | field (base : Expr) (id : StructId) (index : Nat)
  /-- An element of the array whose first element `data` points at. -/
  | element (data index : Expr)

end

instance : Inhabited Expr := ⟨.mk (.bool false) default none .null⟩

namespace Expr

/-- The form of a value. -/
def kind : Expr → ExprKind
  | mk kind _ _ _ => kind

/-- The type of a value. -/
def type : Expr → Ty
  | mk _ type _ _ => type

/-- What is known of a value when compiling. -/
def constant : Expr → Option Const
  | mk _ _ constant _ => constant

/-- Where a value was written. -/
def span : Expr → Span
  | mk _ _ _ span => span

/-- The value of a constant. -/
def ofConst (kind : ExprKind) (type : Ty) (constant : Const) (span : Span) : Expr :=
  mk kind type (some constant) span

/-- A value of which nothing is known when compiling. -/
def computed (kind : ExprKind) (type : Ty) (span : Span) : Expr := mk kind type none span

/-- The truth value of a condition that is known when compiling. -/
def known? (e : Expr) : Option Bool := e.constant.bind Const.bool?

end Expr

namespace Place

/-- The form of a location. -/
def kind : Place → PlaceKind
  | mk kind _ _ _ => kind

/-- The type of what a location holds. -/
def type : Place → Ty
  | mk _ type _ _ => type

/-- Whether a location may not be written. -/
def constant : Place → Bool
  | mk _ _ constant _ => constant

/-- Where a location was named. -/
def span : Place → Span
  | mk _ _ _ span => span

/-- The value at a location, of which nothing is known when compiling. -/
def read (p : Place) : Expr := .computed (.load p) p.type p.span

/-- The address of a location, as a shared pointer. -/
def pointerTo (p : Place) (constant : Bool) (span : Span) : Expr :=
  .computed (.address p) (Shape.shared p.type constant).plain span

end Place

/-- The location that a value is read from, if it is nothing but a read. -/
def Expr.place? (e : Expr) : Option Place :=
  match e.kind with
  | .load place => some place
  | _ => none

end OwnLang.Core
