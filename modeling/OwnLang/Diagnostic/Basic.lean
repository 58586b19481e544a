import OwnLang.Diagnostic.Cause
import OwnLang.Source.Span

/-!
# Diagnostics

A `Diagnostic` ends a compilation; a `Warning` does not.
-/

namespace OwnLang

/-- A second site that a diagnostic points at, such as the place of an earlier move. -/
structure Related where
  label : String
  span : Span
deriving DecidableEq, Inhabited

/-- A cause and the place of the fault. -/
structure Diagnostic where
  cause : Cause
  span : Span
  related : Option Related := none
deriving DecidableEq, Inhabited

namespace Diagnostic

/-- The same diagnostic, pointing at a second site too. -/
def withRelated (d : Diagnostic) (label : String) (span : Span) : Diagnostic :=
  { d with related := some ⟨label, span⟩ }

/-- The sentence shown to the programmer. -/
def message (d : Diagnostic) : String := d.cause.message

end Diagnostic

/-- What a warning is about. -/
inductive WarningKind where
  /-- Statements that no execution reaches. -/
  | unreachableCode
deriving DecidableEq, Inhabited

/-- A remark on a program that is accepted all the same. -/
structure Warning where
  kind : WarningKind
  span : Span
deriving DecidableEq, Inhabited

namespace Warning

/-- The diagnostic that takes the warning's place where warnings are errors. -/
def toDiagnostic (w : Warning) : Diagnostic :=
  match w.kind with
  | .unreachableCode => ⟨.unreachableCode, w.span, none⟩

/-- The sentence shown to the programmer. -/
def message (w : Warning) : String := w.toDiagnostic.message

end Warning

end OwnLang
