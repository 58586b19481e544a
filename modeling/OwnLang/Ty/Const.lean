/-!
# Constants

Values that are known when a program is compiled.
-/

namespace OwnLang

/-- A value known when compiling. -/
inductive Const where
  | int (value : Int)
  | bool (value : Bool)
  | str (text : String)
deriving DecidableEq, Inhabited

namespace Const

/-- The integer that a constant is. -/
def int? : Const → Option Int
  | int value => some value
  | _ => none

/-- The truth value that a constant is. -/
def bool? : Const → Option Bool
  | bool value => some value
  | _ => none

end Const

end OwnLang
