import OwnLang.Core.Expr
import OwnLang.Surface.Item

/-!
# Declared entities

Packages, functions and variables, structs, aliases, macros and templates. Each is first declared
by name alone and completed when something needs its type or layout. `State` says how far it is.
-/

namespace OwnLang

open Surface (Ident)

/-- How far the resolution of an entity is. -/
inductive State where
  | declared
  /-- Needed again in this state, it depends on itself. -/
  | resolving
  | complete
deriving DecidableEq, Inhabited

/-- What a name of a package can stand for. -/
inductive Member where
  | global (id : GlobalId)
  | struct (id : StructId)
  | typeAlias (id : AliasId)
  | template (id : TemplateId)
deriving DecidableEq, Inhabited

/-- A name space. -/
structure Package where
  name : String
  /-- In the order of declaration. -/
  members : List (Ident × Member) := []
  macros : List (String × MacroId) := []
deriving Inhabited

namespace Package

/-- What a name stands for: the first declaration of that name. -/
def member? (p : Package) (name : String) : Option Member :=
  (p.members.find? fun (ident, _) => ident.name == name).map (·.2)

/-- The macro of a name. -/
def macro? (p : Package) (name : String) : Option MacroId := p.macros.lookup name

end Package

/-- Where names are looked up: the package of a file, its imports, and the types that stand for the
parameters of the template that is being instantiated. -/
structure Scope where
  package : PackageId
  imports : List PackageId
  bindings : List (String × Ty)
deriving Inhabited

/-- The forms of globals. -/
inductive GlobalKind where
  | function (decl : Surface.FnDecl) (owner : Option StructId)
  | storage (decl : Surface.VarDecl)

/-- A function, method or variable of a package. -/
structure Global where
  package : PackageId
  name : Ident
  /-- The name that messages show. -/
  display : String
  /-- The name in the emitted module. -/
  symbol : String
  constant : Bool
  kind : GlobalKind
  scope : Scope
  type : Option Ty
  state : State
  /-- The value of a variable's initializer. -/
  value : Option Const
  isInstance : Bool
  /-- How deep instances of templates are nested where its body is checked; 0 outside of them. -/
  depth : Nat

namespace Global

/-- The declaration of a function. -/
def fnDecl? (g : Global) : Option Surface.FnDecl :=
  match g.kind with
  | .function decl _ => some decl
  | .storage _ => none

/-- Whether it is a function. -/
def isFunction (g : Global) : Bool := g.fnDecl?.isSome

/-- Whether it is a function that is defined elsewhere. -/
def isExternal (g : Global) : Bool := g.fnDecl?.any (·.body.isNone)

/-- How a function relates to a struct. -/
def fnKind? (g : Global) : Option Surface.FnKind := g.fnDecl?.map (·.kind)

end Global

/-- A field of a struct. -/
structure Field where
  name : Ident
  constant : Bool
  type : Ty
  default : Option Core.Expr

/-- A struct. -/
structure StructDef where
  package : PackageId
  name : Ident
  /-- The name that messages show, with type arguments for an instance of a template. -/
  display : String
  /-- The name in the emitted module. -/
  symbol : String
  decl : Surface.StructDecl
  scope : Scope
  fields : List Field
  /-- Its methods and static functions in the order of declaration. -/
  members : List (String × GlobalId)
  state : State
  isInstance : Bool

namespace StructDef

/-- The position of a field. -/
def fieldIndex? (d : StructDef) (name : String) : Option Nat :=
  d.fields.findIdx? (·.name.name == name)

/-- The method or static function of a name: the first one declared. -/
def member? (d : StructDef) (name : String) : Option GlobalId := d.members.lookup name

end StructDef

/-- Another name for a type. -/
structure AliasDef where
  package : PackageId
  name : Ident
  display : String
  target : Surface.TypeExpr
  scope : Scope
  resolved : Option Ty
  state : State

/-- A parameter of a macro. -/
structure MacroParam where
  constant : Bool
  type : Ty

/-- A macro, whose code the emitter provides. -/
structure MacroDef where
  package : PackageId
  name : Ident
  /-- The path by which the emitter knows it. -/
  fullName : String
  decl : Surface.MacroDecl
  scope : Scope
  params : List MacroParam
  returns : Ty
  state : State

/-- What a template makes. -/
inductive Entity where
  | struct (id : StructId)
  | global (id : GlobalId)
deriving DecidableEq, Inhabited

/-- What a template has made for some type arguments. -/
structure Instance where
  args : List Ty
  entity : Entity

/-- A declaration over type parameters. -/
structure TemplateDef where
  package : PackageId
  name : Ident
  params : List Ident
  item : Surface.Item
  scope : Scope
  /-- In the order of first request. -/
  instances : List Instance

/-- What a template has made for type arguments, whatever their aliases. -/
def TemplateDef.instance? (t : TemplateDef) (args : List Ty) : Option Entity :=
  (t.instances.find? fun made => Ty.sameList made.args args).map (·.entity)

end OwnLang
