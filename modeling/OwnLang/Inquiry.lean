import OwnLang.Check.Basic
import OwnLang.Grammar.Basic

/-!
# Inquiries

Questions about a program that is checked or half checked: what the types, values, functions and
macros of a text stand for in a package of the program. The text is read to its end, and every other
package of the program is imported. What an inquiry resolves on the way stays resolved.
-/

namespace OwnLang.Inquiry

open Surface (Ident)

/-- The name of the file that the texts of inquiries stand in. -/
def fileName : String := "query"

/-- Reads a text to its end. -/
def read {α : Type} (reader : Parse α) (text : String) : Check α := do
  let tokens ← Run.ofExcept (tokenize text fileName)
  match Cursor.ofTokens? tokens with
  | none => Run.stop .depth
  | some cursor =>
    match (do let a ← reader; let _ ← Parse.expect .eof; return a : Parse α) cursor with
    | .ok a _ => return a
    | .error d _ => Run.fail d
    | .stopped why => Run.stop why

/-- Reads a type. -/
def readType (text : String) : Check Surface.TypeExpr := read (Grammar.rule (.type .lowest)) text

/-- Reads an expression. -/
def readExpr (text : String) : Check Surface.Expr := read (Grammar.rule (.expr .lowest)) text

/-- Reads a path with its type arguments. -/
def readPath (text : String) : Check (List Ident × List Surface.TypeExpr × Span) := do
  let e ← readExpr text
  match e.kind with
  | .path path args => return (path, args, e.span)
  | _ => Run.reject .expectedVariable e.span

/-- The scope of inquiries in a package. -/
def scopeIn (c : Context) (package : PackageId) : Scope :=
  let all := (List.range c.packages.size).map PackageId.mk
  { package, imports := all.filter (· != package), bindings := [] }

/-- The type of a text. -/
def typeOf (scope : Scope) (text : String) : Check Ty := do
  Check.answer (.type (← readType text) scope)

/-- The type of a text, with its layout resolved. -/
def completeTypeOf (scope : Scope) (text : String) : Check Ty := do
  let written ← readType text
  let t ← Check.answer (.type written scope)
  requireValueType t written.span
  Check.answer.complete t written.span
  return t

/-- The value of a text, converted to the type of another text if there is one. -/
def valueOf (scope : Scope) (text : String) (expected : Option String) : Check Core.Expr := do
  let e ← readExpr text
  let t ← match expected with
    | none => pure none
    | some text => some <$> typeOf scope text
  Check.answer (.value e t scope)

/-- The function or variable that a path stands for, with its type. -/
def globalOf (scope : Scope) (text : String) : Check (GlobalId × Ty) := do
  let (path, args, span) ← readPath text
  match ← Check.resolvePath Check.answer path args scope with
  | .global id => return (id, ← Check.answer (.global id span))
  | _ => Run.reject .expectedVariable span

/-- The macro that a path stands for. -/
def macroOf (scope : Scope) (text : String) : Check MacroId := do
  let (path, _, _) ← readPath text
  Check.namedMacro Check.answer path scope

/-- What a template makes for the types of texts, and whether it had made it before. -/
def instanceOf (scope : Scope) (id : TemplateId) (texts : List String) :
    Check (Option Entity × Entity) := do
  let args ← texts.mapM (typeOf scope)
  let known := ((← get).template id).instance? args
  return (known, ← Check.instantiate Check.answer id args .null)

/-- The package of a name before and after it is asked for. -/
def packageOf (name : String) : Check (Option PackageId × PackageId) := do
  let known := (← get).findPackage name
  return (known, ← Check.packageId name)

/-- The member of a struct, with the function that its name stands for. -/
def memberOf (id : StructId) (name : String) : Check (Option GlobalId × Check.MemberKind) := do
  let function := ((← get).struct id).member? name
  return (function, ← Check.structMember Check.answer id ⟨name, .null⟩)

end OwnLang.Inquiry
