import OwnLang.Check.Stmt

/-!
# Function bodies

The parameters of a function are declared in its outermost block, `this` first inside methods. A
body that control reaches the end of returns there, which only a function of type `void` may do.
-/

namespace OwnLang.Check

open Surface (Ident)

/-- Completes what the parameters hold by value, the last parameter first. -/
def completeParams (ask : Asker) : List (Ty × Surface.Param) → Check Unit
  | [] => return ()
  | (t, param) :: rest => do
    ask.complete t param.type.span
    completeParams ask rest

/-- Declares parameters. -/
def declareParams : List (Surface.Param × Ty) → Check (List LocalId)
  | [] => return []
  | (param, t) :: rest => do
    let id ← declareLocal param.name t false none
    return id :: (← declareParams rest)

/-- Declares the receiver of a method; the answer holds the types of the other parameters. -/
def declareReceiver (decl : Surface.FnDecl) (owner : Option StructId) (params : List Ty) :
    Check (List LocalId × List Ty) := do
  match owner, params with
  | some owner, this :: rest =>
    if decl.params.length < params.length then
      let id ← declareLocal ⟨"this", decl.name.span⟩ this true none
      modifyFrame fun f => { f with receiver := some (id, owner) }
      return ([id], rest)
    else return ([], params)
  | _, _ => return ([], params)

/-- The parameters and the statements of a body, in an open frame. -/
def bodyParts (ask : Asker) (decl : Surface.FnDecl) (owner : Option StructId) (params : List Ty)
    (scope : Scope) : Check (List LocalId × List Core.Stmt) := do
  let (receiver, others) ← declareReceiver decl owner params
  let ids ← declareParams (decl.params.zip others)
  let stmts ← match decl.body with
    | some body => checkStmts ask scope body.stmts
    | none => pure []
  return (receiver ++ ids, stmts)

/-- The `return` at the end of a body, if control reaches it. -/
def finalReturn (f : Frame) (decl : Surface.FnDecl) (display : String) :
    Except Diagnostic (List Core.Stmt) :=
  if f.top.terminated then .ok []
  else if !f.returns.shape.isVoid then .error ⟨.missingReturn display, decl.name.span, none⟩
  else
    let span := (decl.body.map (·.span)).getD decl.span
    .ok [.mk (.ret none (f.releaseOrder f.top)) span false]

/-- The body of a function of known type. -/
def checkTypedBody (ask : Asker) (id : GlobalId) (decl : Surface.FnDecl) (owner : Option StructId)
    (display : String) (scope : Scope) (params : List Ty) (returns : Ty) : Check Body := do
  completeParams ask (params.reverse.zip decl.params.reverse)
  modify fun c => { c with frame := some { function := id, returns, blocks := [{}] } }
  let outcome ← (bodyParts ask decl owner params scope).attempt
  let f ← frame
  modify fun c => { c with frame := none }
  let (ids, stmts) ← Run.ofExcept outcome
  let last ← Run.ofExcept (finalReturn f decl display)
  return { function := id, params := ids, locals := f.locals, block := .mk (stmts ++ last) [], returns }

/-- The body of a function. -/
def checkBody (ask : Asker) (id : GlobalId) : Check Body := do
  let g := (← get).global id
  match g.kind with
  | .storage _ => Run.reject (.notCallable g.display) g.name.span
  | .function decl owner => do
    let t ← ask (.global id decl.name.span)
    match t.shape with
    | .func params _ returns =>
      checkTypedBody ask id decl owner g.display g.scope params returns
    | _ => Run.reject (.notCallable t.describe) decl.name.span

end OwnLang.Check
