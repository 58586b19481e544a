import OwnLang.Emit.Stmt
import OwnLang.Ir.Text

/-!
# Emitting modules

`emitModule` makes the module of a checked program: the runtime's functions, the struct types, the
variables, the checked bodies, and `main`, which calls the entry point. Every local has a slot, and
parameters are stored in theirs before the body runs.
-/

namespace OwnLang

namespace Emit

open Ir (Operand Build)

/-- Declares the functions that any module may call. -/
def declareRuntime : Ir.Build Unit := do
  Build.declare { name := "malloc", returns := .ptr, params := [.int 64], variadic := false }
  Build.declare { name := "free", returns := .void, params := [.ptr], variadic := false }
  Build.declare { name := "printf", returns := .int 32, params := [.ptr], variadic := true }

/-- Defines the type of a struct whose layout is known. -/
def emitStruct (d : StructDef) : Emit Unit := do
  if d.state = .complete then
    let fields ← d.fields.mapM fun field => irType field.type
    build (Build.defineStruct d.symbol fields)

/-- Defines a variable. -/
def emitVariable (g : Global) (t : Ty) : Emit Unit := do
  let value ← match g.value with
    | some value => constantOperand value t
    | none => pure ((← context).zeroOf t)
  build (Build.defineGlobal g.symbol g.constant value)

/-- Declares a function that is defined elsewhere. -/
def emitExternal (g : Global) (t : Ty) : Emit Unit := do
  match t.shape with
  | .func params variadic returns => do
    let c ← context
    build (Build.declare
      { name := g.symbol, returns := c.irType returns, params := params.map c.irType, variadic })
  | _ => return ()

/-- Defines a variable, or declares a function that is defined elsewhere. -/
def emitGlobal (g : Global) : Emit Unit := do
  match g.type, g.kind with
  | none, _ => return ()
  | some t, .storage _ => emitVariable g t
  | some t, .function decl _ => if decl.body.isNone then emitExternal g t else return ()

/-- Reserves slots for locals. -/
def reserveSlots : List Local → Emit Unit
  | [] => return ()
  | l :: rest => do
    let address ← build (Build.slot (← irType l.type))
    modify fun s => { s with slots := s.slots.push (address, l.type) }
    reserveSlots rest

/-- Stores the parameters in their slots. -/
def storeParams : List (LocalId × Operand) → Emit Unit
  | [] => return ()
  | (id, value) :: rest => do
    build (Build.store value (← slot id).1)
    storeParams rest

/-- Defines the function of a checked body. -/
def emitBody (body : Body) : Emit Unit := do
  let c ← context
  let localType (id : LocalId) : Ir.Ty := c.irType (body.locals[id.index]?.getD default).type
  let params := body.params.map localType
  let values ← build
    (Build.beginFunction (c.global body.function).symbol (c.irType body.returns) params)
  modify fun s => { s with slots := #[], loops := [] }
  reserveSlots body.locals.toList
  storeParams (body.params.zip values)
  emitBlock body.block
  build Build.endFunction

/-- Defines `main`, which calls the entry point and returns its status. -/
def emitEntry (entry : GlobalId) : Emit Unit := do
  let c ← context
  let returns := match c.functionType? entry with
    | some (_, _, returns) => c.irType returns
    | none => .void
  let callee ← symbolOf entry
  build do
    let _ ← Build.beginFunction "main" (.int 32) []
    let status ← Build.call returns callee [] none
    Build.ret (some (if status.type.isVoid then ⟨.int 32, .int 0⟩ else status))
    Build.endFunction

/-- Defines everything that a checked program has. -/
def emitProgram : Emit Unit := do
  let c ← context
  build declareRuntime
  for d in c.structs do
    emitStruct d
  for g in c.globals do
    emitGlobal g
  for body in c.bodies do
    emitBody body
  if let some entry := c.entry then
    emitEntry entry

end Emit

/-- The module of a checked program. -/
def emitModule (c : Context) : Except Failure Ir.Module :=
  ((do Emit.emitProgram; return (← get).builder.module : Emit Ir.Module) { context := c }).result

end OwnLang
