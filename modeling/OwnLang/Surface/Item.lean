import OwnLang.Surface.Stmt

/-!
# Declarations and files as written
-/

namespace OwnLang.Surface

/-- How a function relates to a struct. -/
inductive FnKind where
  /-- A function of a package. -/
  | plain
  /-- A method on `*Self`. -/
  | method
  /-- A method on `const *Self`. -/
  | constMethod
  /-- A function of a struct that has no receiver. -/
  | static
deriving DecidableEq, Inhabited

/-- Whether a function of this kind has a receiver. -/
def FnKind.isMethod : FnKind → Bool
  | .method | .constMethod => true
  | .plain | .static => false

/-- A parameter of a function. -/
structure Param where
  name : Ident
  type : TypeExpr

/-- A function; one without a body is defined elsewhere. -/
structure FnDecl where
  name : Ident
  kind : FnKind
  params : List Param
  variadic : Bool
  returns : Option TypeExpr
  body : Option Block
  span : Span

/-- A struct with its fields, and its methods and static functions. -/
structure StructDecl where
  name : Ident
  fields : List VarDecl
  methods : List FnDecl

/-- A parameter of a macro; a constant one takes only values known when compiling. -/
structure MacroParam where
  constant : Bool
  type : TypeExpr

/-- A macro, which has a signature but no body. -/
structure MacroDecl where
  name : Ident
  params : List MacroParam
  variadic : Bool
  returns : Option TypeExpr

/-- The forms of declarations. -/
inductive ItemKind where
  | function (decl : FnDecl)
  | struct (decl : StructDecl)
  | global (decl : VarDecl)
  | typeAlias (name : Ident) (target : TypeExpr)
  | macroDecl (decl : MacroDecl)

/-- The name that a declaration introduces. -/
def ItemKind.name : ItemKind → Ident
  | function decl => decl.name
  | struct decl => decl.name
  | global decl => decl.name
  | typeAlias name _ => name
  | macroDecl decl => decl.name

/-- A declaration of a file; type parameters make it a template. -/
structure Item where
  kind : ItemKind
  template : List Ident
  span : Span

/-- The name that a declaration introduces. -/
def Item.name (item : Item) : Ident := item.kind.name

/-- A parsed file: the package it belongs to, its imports and its declarations. -/
structure Module where
  file : String
  package : Ident
  imports : List Ident
  items : List Item

end OwnLang.Surface
