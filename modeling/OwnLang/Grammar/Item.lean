import OwnLang.Grammar.Stmt

/-!
# Reading declarations
-/

namespace OwnLang.Grammar

open Surface Parse

/-- `: R`, and a semicolon or a body behind a parameter list. -/
def fnBody (sub : Readers) : Parse (Option Block) := do
  if ← eat .semicolon then return none else some <$> sub.wholeBlock

/-- A name and its type. -/
def param (sub : Readers) : Parse Param := do
  let name ← ident
  let _ ← expect .colon
  return ⟨name, ← sub.wholeType⟩

/-- A function, from its `fn` on. -/
def fnDecl (sub : Readers) (kind : FnKind) : Parse FnDecl := do
  let start ← expect .kwFn
  let name ← ident
  let _ ← expect .openParen
  let (params, variadic) ← parameters (param sub)
  let returns ← typeAnnotation sub
  let body ← fnBody sub
  return { name, kind, params, variadic, returns, body, span := ← spanFrom start.span }

/-- A field, which has a type or a default value or both. -/
def field (sub : Readers) : Parse VarDecl := do
  let constant := (← advance).kind = .kwConst
  let name ← ident
  let type ← typeAnnotation sub
  let value ← initializer sub
  if type.isNone && value.isNone then unexpected "expected type or default value"
  let _ ← expect .semicolon
  return ⟨name, constant, type, value⟩

/-- A part of a struct's body. -/
inductive StructPart where
  | field (decl : VarDecl)
  | method (decl : FnDecl)

/-- The field or function at the cursor. -/
def structPart (sub : Readers) : Parse StructPart := do
  match ← kind, ← peek 1 with
  | .kwFn, _ => .method <$> fnDecl sub .method
  | .kwConst, .kwFn => do
    let _ ← advance
    .method <$> fnDecl sub .constMethod
  | .kwStatic, _ => do
    let _ ← advance
    .method <$> fnDecl sub .static
  | .kwVar, _ | .kwConst, _ => .field <$> field sub
  | _, _ => unexpected "expected field or method"

/-- A struct. -/
def structDecl (sub : Readers) : Parse StructDecl := do
  let _ ← expect .kwStruct
  let name ← ident
  let _ ← expect .openCurly
  let parts ← collect do
    if (← kind) = .closeCurly then return none else some <$> structPart sub
  let _ ← expect .closeCurly
  return {
    name
    fields := parts.filterMap fun | .field decl => some decl | .method _ => none
    methods := parts.filterMap fun | .field _ => none | .method decl => some decl }

/-- A macro's parameter, constant if `#` stands in front of it. -/
def macroParam (sub : Readers) : Parse MacroParam := do
  let constant ← eat .hash
  return ⟨constant, ← sub.wholeType⟩

/-- A macro. -/
def macroDecl (sub : Readers) : Parse MacroDecl := do
  let _ ← expect .kwMacro
  let name ← ident
  let _ ← expect .openParen
  let (params, variadic) ← parameters (macroParam sub)
  let returns ← typeAnnotation sub
  let _ ← expect .semicolon
  return ⟨name, params, variadic, returns⟩

/-- Type parameters `template <T, U>`, where they are written. -/
def templateParams : Parse (List Ident) := do
  if ← eat .kwTemplate then
    let _ ← expect .less
    let params ← commaSeparated ident
    let _ ← expect .greater
    return params
  else return []

/-- A declaration without its type parameters. -/
def itemKind (sub : Readers) : Parse ItemKind := do
  match ← kind with
  | .kwFn => .function <$> fnDecl sub .plain
  | .kwStruct => .struct <$> structDecl sub
  | .kwVar | .kwConst => do
    let decl ← varDecl sub
    let _ ← expect .semicolon
    return .global decl
  | .kwTypealias => do
    let _ ← advance
    let name ← ident
    let _ ← expect .assignment
    let target ← sub.wholeType
    let _ ← expect .semicolon
    return .typeAlias name target
  | .kwMacro => .macroDecl <$> macroDecl sub
  | _ => unexpected "expected declaration"

/-- Whether a declaration can have type parameters. -/
def canBeTemplate : ItemKind → Bool
  | .function _ | .struct _ | .global _ => true
  | .typeAlias .. | .macroDecl _ => false

/-- A declaration. -/
def item (sub : Readers) : Parse Item := do
  let start ← current
  let template ← templateParams
  let kind ← itemKind sub
  let span ← spanFrom start.span
  if !template.isEmpty && !canBeTemplate kind then
    Run.reject (.unexpectedTokenDetailed "template"
      "only functions, structs and globals can be templates") span
  return { kind, template, span }

/-- The package of a file, `main` where none is written. -/
def package : Parse Ident := do
  if ← eat .kwPackage then
    let name ← ident
    let _ ← expect .semicolon
    return name
  else
    let first ← current
    return ⟨"main", .point first.span.file first.span.start⟩

/-- The imports of a file. -/
def imports : Parse (List Ident) :=
  collect do
    if ← eat .kwImport then
      let name ← ident
      let _ ← expect .semicolon
      return some name
    else return none

/-- A whole file. -/
def file (sub : Readers) (name : String) : Parse Module := do
  let package ← package
  let imports ← imports
  let items ← collect do
    if (← get).hasTokens then some <$> item sub else return none
  return { file := name, package, imports, items }

end OwnLang.Grammar
