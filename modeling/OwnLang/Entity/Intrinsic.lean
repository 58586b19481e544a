/-!
# Intrinsic macros

The macros whose code the emitter provides, by the path under which they are declared.
-/

namespace OwnLang

/-- A macro that the emitter knows. -/
inductive Intrinsic where
  | print
  /-- Like `print`, with a line feed at the end. -/
  | println
deriving DecidableEq, Inhabited

/-- The intrinsic of a macro's path. -/
def Intrinsic.ofPath? : String → Option Intrinsic
  | "std::print" => some print
  | "std::println" => some println
  | _ => none

end OwnLang
