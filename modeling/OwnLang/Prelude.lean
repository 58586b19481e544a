/-!
# The standard package

`std` is plain source text, read ahead of the program: the runtime's functions and the macros
`print` and `println`, whose bodies the emitter provides.
-/

namespace OwnLang.Prelude

/-- The name of the file that holds the standard package. -/
def fileName : String := "std.own"

/-- The text of the standard package. -/
def text : String := String.join <| List.map (· ++ "\n")
  [ "package std;",
    "",
    "macro print(#const i8[], ...);",
    "macro println(#const i8[], ...);",
    "",
    "fn malloc(size: i64): *i8;",
    "fn free(ptr: *i8);",
    "fn printf(format: const i8[], ...): i32;",
    "fn atoi(text: const i8[]): i32;",
    "fn rand(): i32;",
    "fn srand(seed: i32);" ]

end OwnLang.Prelude
