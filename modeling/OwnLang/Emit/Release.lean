import OwnLang.Emit.Type

/-!
# Allocating and releasing

Owner pointers are freed when the value that holds them is released; an array of unique values
releases them one by one. Other values own nothing.
-/

namespace OwnLang.Emit

open Ir (Operand)

/-- Allocates bytes. -/
def allocate (size : Operand) : Emit Operand :=
  build (Ir.Build.call .ptr (.symbol "malloc") [size] none)

/-- Allocates a copy of a value. -/
def heapCopy (value : Operand) (size : Nat) : Emit Operand := do
  let pointer ← allocate ⟨.int 64, .int size⟩
  build (Ir.Build.store value pointer)
  return pointer

/-- Part `index` of a value. -/
def extract (type : Ir.Ty) (value : Operand) (index : Nat) : Emit Operand :=
  build (Ir.Build.result type (.extract value index))

/-- Frees what a value owns. -/
def release (value : Operand) : Ty → Emit Unit
  | .mk (.owner ..) _ => do
    let _ ← build (Ir.Build.call .void (.symbol "free") [value] none)
  | .mk (.array element _ (some size)) _ => do
    if !element.isCopyable then
      let type ← irType element
      for index in List.range size do
        let part ← extract type value index
        release part element
  | _ => return ()

/-- Frees what locals own, in the order given. -/
def dropLocals : List LocalId → Emit Unit
  | [] => return ()
  | id :: rest => do
    let (address, t) ← slot id
    let value ← build (Ir.Build.load (← irType t) address)
    release value t
    dropLocals rest

end OwnLang.Emit
