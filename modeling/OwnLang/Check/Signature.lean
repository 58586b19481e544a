import OwnLang.Check.Type

/-!
# Resolving entities on demand

The target of an alias, the type of a function or variable, the fields of a struct and the signature
of a macro are resolved when they are first needed. An entity that is needed again before it is
complete depends on itself and is refused.
-/

namespace OwnLang.Check

open Surface (Ident)

/-- The type that an alias names. -/
def resolveAlias (ask : Asker) (id : AliasId) (usedAt : Span) : Check Ty := do
  let a := (← get).typeAlias id
  match a.state, a.resolved with
  | .complete, some t => return t
  | .resolving, _ => Run.reject (.cyclicDefinition a.display) usedAt
  | _, _ => do
    modify (·.modifyAlias id fun a => { a with state := .resolving })
    let t ← detached (ask (.type a.target a.scope))
    let resolved : Ty := .mk t.shape (some a.display)
    modify (·.modifyAlias id fun a => { a with resolved := some resolved, state := .complete })
    return resolved

/-- The type of a parameter. -/
def paramType (ask : Asker) (t : Surface.TypeExpr) (scope : Scope) : Check Ty := do
  let resolved ← ask (.type t scope)
  requireValueType resolved t.span
  return resolved

/-- The type that a function returns, `void` where none is written. -/
def returnType (ask : Asker) (t : Option Surface.TypeExpr) (scope : Scope) : Check Ty := do
  return (← resolveAnnotation ask t scope).getD Shape.void.plain

/-- The receiver of a method. -/
def receiverTypes (c : Context) (decl : Surface.FnDecl) (owner : Option StructId) : List Ty :=
  match owner with
  | some id =>
    if decl.kind.isMethod then
      [(Shape.shared (c.structType id) (decl.kind == .constMethod)).plain]
    else []
  | none => []

/-- The type of a function. -/
def fnType (ask : Asker) (decl : Surface.FnDecl) (owner : Option StructId) (scope : Scope) :
    Check Ty := do
  let receiver := receiverTypes (← get) decl owner
  let params ← decl.params.mapM fun p => paramType ask p.type scope
  let returns ← returnType ask decl.returns scope
  return (Shape.func (receiver ++ params) decl.variadic returns).plain

/-- The constant value of an initializer, with its type. -/
def constantInitializer (ask : Asker) (value : Surface.Expr) (expected : Option Ty)
    (scope : Scope) : Check (Ty × Const) := do
  let checked ← ask (.value value expected scope)
  match checked.constant with
  | some constant => return (checked.type, constant)
  | none => Run.reject .expectedConstant value.span

/-- The type and the value of a variable of a package. -/
def variableType (ask : Asker) (decl : Surface.VarDecl) (scope : Scope) :
    Check (Ty × Option Const) := do
  let declared ← resolveAnnotation ask decl.type scope
  let value ← match decl.value with
    | none => pure none
    | some value => some <$> constantInitializer ask value declared scope
  let t ← match declared, value with
    | some t, _ => pure t
    | none, some (t, _) => pure t
    | none, none => Run.reject (.missingInitializer decl.name.name) decl.name.span
  requireValueType t decl.name.span
  ask.complete t decl.name.span
  return (t, value.map (·.2))

/-- The type of a function or variable. -/
def resolveGlobal (ask : Asker) (id : GlobalId) (usedAt : Span) : Check Ty := do
  let g := (← get).global id
  match g.state, g.type with
  | .complete, some t => return t
  | .resolving, _ =>
    Run.reject (if g.isInstance then .cyclicTemplate g.display else .cyclicDefinition g.display)
      usedAt
  | _, _ => do
    modify (·.modifyGlobal id fun g => { g with state := .resolving })
    let (t, value) ← detached <| match g.kind with
      | .function decl owner => do return (← fnType ask decl owner g.scope, none)
      | .storage decl => variableType ask decl g.scope
    modify (·.modifyGlobal id fun g =>
      { g with type := some t, value, state := .complete })
    return t

/-- A field of a struct, beside the fields in front of it. -/
def resolveField (ask : Asker) (scope : Scope) (before : List Field) (decl : Surface.VarDecl) :
    Check Field := do
  if let some previous := before.find? (·.name.name == decl.name.name) then
    Run.fail (alreadyExists "Property" decl.name declaredHere previous.name.span)
  let declared ← resolveAnnotation ask decl.type scope
  let default ← match decl.value with
    | none => pure none
    | some value => some <$> ask (.value value declared scope)
  let t ← match declared, default with
    | some t, _ => pure t
    | none, some value => pure value.type
    | none, none => Run.reject (.missingInitializer decl.name.name) decl.name.span
  requireValueType t decl.name.span
  ask.complete t decl.name.span
  if !t.shape.isCopyable then
    Run.reject (.uniqueField t.describe) decl.name.span
  return { name := decl.name, constant := decl.constant, type := t, default }

/-- The fields of a struct, behind those that are resolved already. -/
def resolveFields (ask : Asker) (scope : Scope) (done : List Field) :
    List Surface.VarDecl → Check (List Field)
  | [] => return done
  | decl :: rest => do
    let next ← resolveField ask scope done decl
    resolveFields ask scope (done ++ [next]) rest

/-- The first method or static function whose name another member has, with that member's name. -/
def clashingMember? (taken : List Ident) : List Ident → Option (Ident × Ident)
  | [] => none
  | name :: rest =>
    match taken.find? (·.name == name.name) with
    | some previous => some (name, previous)
    | none => clashingMember? (taken ++ [name]) rest

/-- Resolves the fields of a struct. -/
def resolveStruct (ask : Asker) (id : StructId) (usedAt : Span) : Check Unit := do
  let d := (← get).struct id
  match d.state with
  | .complete => return ()
  | .resolving =>
    Run.reject (if d.isInstance then .cyclicTemplate d.display else .recursiveStruct d.display)
      usedAt
  | .declared => do
    modify (·.modifyStruct id fun d => { d with state := .resolving })
    let fields ← detached (resolveFields ask d.scope [] d.decl.fields)
    let c ← get
    let names := (c.struct id).members.map fun (_, member) => (c.global member).name
    if let some (name, previous) := clashingMember? (fields.map (·.name)) names then
      Run.fail (alreadyExists "Member" name declaredHere previous.span)
    modify (·.modifyStruct id fun d => { d with fields, state := .complete })

/-- Resolves the signature of a macro. -/
def resolveMacro (ask : Asker) (id : MacroId) : Check Unit := do
  let m := (← get).macroDef id
  if m.state = .complete then return ()
  let params ← m.decl.params.mapM fun p => do
    return ({ constant := p.constant, type := ← paramType ask p.type m.scope } : MacroParam)
  let returns ← returnType ask m.decl.returns m.scope
  modify (·.modifyMacro id fun m => { m with params, returns, state := .complete })

end OwnLang.Check
