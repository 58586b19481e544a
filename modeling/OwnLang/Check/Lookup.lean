import OwnLang.Check.Query

/-!
# Looking up names

A simple name is looked up in the package of the scope and then in its imports; a name with a
package in front only there. Macros have names of their own.
-/

namespace OwnLang

open Surface (Ident)

namespace Context

/-- The packages that a simple name is looked up in, in that order. -/
def visiblePackages (c : Context) (scope : Scope) : List Package :=
  (scope.package :: scope.imports).map c.package

/-- The member that a simple name stands for. -/
def visibleMember? (c : Context) (scope : Scope) (name : String) : Option Member :=
  (c.visiblePackages scope).findSome? (·.member? name)

/-- The macro that a simple name stands for. -/
def visibleMacro? (c : Context) (scope : Scope) (name : String) : Option MacroId :=
  (c.visiblePackages scope).findSome? (·.macro? name)

/-- The package of a name that stands in a path. -/
def packageNamed (c : Context) (name : Ident) : Except Diagnostic Package :=
  match c.findPackage name.name with
  | some id => .ok (c.package id)
  | none => .error ⟨.unknownPackage name.name, name.span, none⟩

/-- The member that a path of one or two names stands for. -/
def memberOfPath (c : Context) (path : List Ident) (scope : Scope) :
    Except Diagnostic (Option Member) :=
  match path with
  | [name] => .ok (c.visibleMember? scope name.name)
  | [package, name] => (c.packageNamed package).map (·.member? name.name)
  | _ => .ok none

/-- The macro that a path of one or two names stands for. -/
def macroOfPath (c : Context) (path : List Ident) (scope : Scope) : Except Diagnostic MacroId := do
  let found ← match path with
    | [name] => .ok (c.visibleMacro? scope name.name)
    | [package, name] => (c.packageNamed package).map (·.macro? name.name)
    | _ => .ok none
  match found with
  | some id => return id
  | none => .error ⟨.undefinedMacro (Ident.pathText path), Ident.pathSpan path, none⟩

end Context

end OwnLang
