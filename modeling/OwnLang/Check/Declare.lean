import OwnLang.Check.Query

/-!
# Declaring entities

Every declaration makes an entity that is known by name alone, and every function with a body waits
for that body to be checked. An instance of a template is declared in the same way, under a symbol
and a shown name of its own, but it is no member of its package.
-/

namespace OwnLang

open Surface (Ident)

/-- The names of what a template makes for some type arguments. -/
structure InstanceNames where
  number : Nat
  display : String

namespace Check

/-- The diagnostic for a name that was declared before at another place. -/
def alreadyExists (kind : String) (name : Ident) (label : String) (previous : Span) : Diagnostic :=
  { cause := .alreadyExists kind name.name, span := name.span, related := some ⟨label, previous⟩ }

/-- The label of the place of an earlier declaration. -/
def declaredHere : String := "Already declared here"

/-- How deep a new entity's body is nested. -/
def depthOf (isInstance : Bool) : Check Nat := do
  let c ← get
  return if isInstance then c.instantiationDepth else 0

/-- Adds a function; one with a body waits for it to be checked. -/
def declareFunction (decl : Surface.FnDecl) (scope : Scope) (owner : Option StructId)
    (symbol display : String) (isInstance : Bool) : Check GlobalId := do
  let depth ← depthOf isInstance
  let id : GlobalId := ⟨(← get).globals.size⟩
  let added : Global :=
    { package := scope.package, name := decl.name, display, symbol, constant := true
      kind := .function decl owner, scope, type := none, state := .declared, value := none
      isInstance, depth }
  modify fun c =>
    { c with
      globals := c.globals.push added
      pending := if decl.body.isSome then c.pending ++ [id] else c.pending }
  return id

/-- Adds a variable. -/
def declareVariable (decl : Surface.VarDecl) (scope : Scope) (symbol display : String)
    (isInstance : Bool) : Check GlobalId := do
  let depth ← depthOf isInstance
  let id : GlobalId := ⟨(← get).globals.size⟩
  let added : Global :=
    { package := scope.package, name := decl.name, display, symbol, constant := decl.constant
      kind := .storage decl, scope, type := none, state := .declared, value := none
      isInstance, depth }
  modify fun c => { c with globals := c.globals.push added }
  return id

/-- Adds a struct together with its methods and static functions. -/
def declareStruct (decl : Surface.StructDecl) (scope : Scope) (symbol display : String)
    (isInstance : Bool) : Check StructId := do
  let id : StructId := ⟨(← get).structs.size⟩
  let added : StructDef :=
    { package := scope.package, name := decl.name, display, symbol, decl, scope, fields := []
      members := [], state := .declared, isInstance }
  modify fun c => { c with structs := c.structs.push added }
  for method in decl.methods do
    let function ← declareFunction method scope (some id) (symbol ++ "." ++ method.name.name)
      (display ++ "::" ++ method.name.name) isInstance
    modify fun c => c.modifyStruct id fun d =>
      { d with members := d.members ++ [(method.name.name, function)] }
  return id

/-- Adds an alias. -/
def declareAlias (name : Ident) (target : Surface.TypeExpr) (scope : Scope) (display : String) :
    Check AliasId := do
  let id : AliasId := ⟨(← get).aliases.size⟩
  let added : AliasDef :=
    { package := scope.package, name, display, target, scope, resolved := none
      state := .declared }
  modify fun c => { c with aliases := c.aliases.push added }
  return id

/-- Adds a macro to its package. -/
def declareMacro (decl : Surface.MacroDecl) (scope : Scope) (fullName : String) : Check Unit := do
  let c ← get
  match (c.package scope.package).macro? decl.name.name with
  | some existing =>
    Run.fail (alreadyExists "Macro" decl.name declaredHere (c.macroDef existing).name.span)
  | none => do
    let id : MacroId := ⟨c.macros.size⟩
    let added : MacroDef :=
      { package := scope.package, name := decl.name, fullName, decl, scope, params := []
        returns := Shape.void.plain, state := .declared }
    modify fun c =>
      { c with macros := c.macros.push added }.modifyPackage scope.package fun p =>
        { p with macros := p.macros ++ [(decl.name.name, id)] }

/-- Adds a name to a package. -/
def addMember (package : PackageId) (name : Ident) (member : Member) : Check Unit :=
  modify fun c => c.modifyPackage package fun p => { p with members := p.members ++ [(name, member)] }

/-- Adds the entity of a declaration, under the names of an instance if it is one. A macro is no
member. -/
def declareEntity (kind : Surface.ItemKind) (scope : Scope) (names : Option InstanceNames) :
    Check (Option Member) := do
  let path := ((← get).package scope.package).name ++ "::" ++ kind.name.name
  let (symbol, display) := match names with
    | some names => (path ++ "." ++ toString names.number, names.display)
    | none => (path, path)
  let isInstance := names.isSome
  match kind with
  | .function decl =>
    let symbol := if decl.body.isNone then decl.name.name else symbol
    (some ∘ Member.global) <$> declareFunction decl scope none symbol display isInstance
  | .struct decl => (some ∘ Member.struct) <$> declareStruct decl scope symbol display isInstance
  | .global decl => (some ∘ Member.global) <$> declareVariable decl scope symbol display isInstance
  | .typeAlias name target => (some ∘ Member.typeAlias) <$> declareAlias name target scope display
  | .macroDecl decl => do
    declareMacro decl scope display
    return none

/-- Adds a template. -/
def declareTemplate (item : Surface.Item) (scope : Scope) : Check Unit := do
  let id : TemplateId := ⟨(← get).templates.size⟩
  let added : TemplateDef :=
    { package := scope.package, name := item.name, params := item.template, item, scope
      instances := [] }
  modify fun c => { c with templates := c.templates.push added }
  addMember scope.package item.name (.template id)

/-- Adds a declaration of a file. -/
def declareItem (item : Surface.Item) (scope : Scope) : Check Unit := do
  if item.template.isEmpty then
    match ← declareEntity item.kind scope none with
    | some member => addMember scope.package item.name member
    | none => return ()
  else declareTemplate item scope

/-- The package of the standard library, which every other package imports. -/
def standardPackage : String := "std"

/-- The packages that a file imports, each once and never its own. -/
def importsOf (package : PackageId) (written : List Ident) : Check (List PackageId) := do
  let standard := ((← get).findPackage standardPackage).filter (· != package)
  let mut imports := standard.toList
  for name in written do
    let id ← packageId name.name
    if !imports.contains id && id != package then
      imports := imports ++ [id]
  return imports

/-- Adds the declarations of a file. -/
def declareModule (file : Surface.Module) : Check Unit := do
  let package ← packageId file.package.name
  let imports ← importsOf package file.imports
  let scope : Scope := { package, imports, bindings := [] }
  for item in file.items do
    declareItem item scope

end Check

end OwnLang
