import OwnLang.Ty.Basic

/-!
# Identities

Everything that a program declares is known by the place at which it was declared.
-/

namespace OwnLang

/-- The identity of a package. -/
structure PackageId where
  index : Nat
deriving DecidableEq, Inhabited

/-- The identity of a function or variable of a package, or of a function of a struct. -/
structure GlobalId where
  index : Nat
deriving DecidableEq, Inhabited

/-- The identity of a type alias. -/
structure AliasId where
  index : Nat
deriving DecidableEq, Inhabited

/-- The identity of a macro. -/
structure MacroId where
  index : Nat
deriving DecidableEq, Inhabited

/-- The identity of a template. -/
structure TemplateId where
  index : Nat
deriving DecidableEq, Inhabited

/-- The identity of a local within its function. -/
structure LocalId where
  index : Nat
deriving DecidableEq, Inhabited

/-- The identity of a loop. -/
structure LoopId where
  index : Nat
deriving DecidableEq, Inhabited

end OwnLang
