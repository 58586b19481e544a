/-!
# Options of a compilation
-/

namespace OwnLang

/-- What a compilation can be told. -/
structure Options where
  /-- The package of the entry point. -/
  entryPackage : String := "main"
  /-- The name of the entry point in its package. -/
  entryFunction : String := "main"
  /-- Whether the standard package is read ahead of the files. -/
  includeStd : Bool := true
  /-- How deep instances of templates may nest that are requested for one another. -/
  maxInstantiationDepth : Nat := 64
  /-- Whether the first warning is an error. -/
  warningsAsErrors : Bool := false
  /-- Whether the entry point has to exist. -/
  requireEntry : Bool := true
deriving Inhabited

/-- Options for code without an entry point. -/
def Options.library : Options := { requireEntry := false }

end OwnLang
