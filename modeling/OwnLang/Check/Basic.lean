import OwnLang.Check.Function

/-!
# Checking programs

`Check.answer` answers queries, `checkModules` checks the files of a program in three passes: it
declares every entity, resolves every signature, layout and initializer, and checks every body.
Bodies that are declared on the way, by instances of templates, wait behind the others.
-/

namespace OwnLang.Check

open Surface (Ident)

/-- The part of checking that a query is for. -/
def step (ask : Asker) : Asker
  | .value e expected scope => checkValue ask e expected scope
  | .denoted e write scope => checkDenoted ask e write scope
  | .type t scope => resolveType ask t scope
  | .typeAlias id usedAt => resolveAlias ask id usedAt
  | .layout id usedAt => resolveStruct ask id usedAt
  | .global id usedAt => resolveGlobal ask id usedAt
  | .stmt s scope => checkStmt ask s scope
  | .block b scope => checkBlock ask b scope

/-- Answers to queries that need others at most `n` deep. -/
def answerTo : Nat → Asker
  | 0, _ => Run.stop .depth
  | n + 1, q => step (answerTo n) q

/-- How deep queries may need one another. -/
def nestingBound : Nat := 100000

/-- Answers to queries. -/
def answer : Asker := fun q => answerTo nestingBound q

/-- The first name that is declared twice, with the place of its first declaration. -/
def duplicate? (seen : List Ident) : List Ident → Option (Ident × Ident)
  | [] => none
  | name :: rest =>
    match seen.find? (·.name == name.name) with
    | some previous => some (name, previous)
    | none => duplicate? (seen ++ [name]) rest

/-- Refuses packages that declare a name twice. -/
def requireUnique : Check Unit := do
  for package in (← get).packages do
    if let some (name, previous) := duplicate? [] (package.members.map (·.1)) then
      Run.fail (alreadyExists "Global" name declaredHere previous.span)

/-- Resolves a member of a package. Aliases are resolved before, templates when they are used. -/
def resolveMember (ask : Asker) (name : Ident) (member : Member) : Check Unit := do
  match member with
  | .struct id => do
    ask (.layout id name.span)
    for (_, function) in ((← get).struct id).members do
      let _ ← ask (.global function name.span)
  | .global id => do
    let _ ← ask (.global id name.span)
  | .typeAlias _ | .template _ => return ()

/-- Resolves everything that is declared. -/
def resolveDeclarations (ask : Asker) : Check Unit := do
  for i in List.range (← get).aliases.size do
    let id : AliasId := ⟨i⟩
    let _ ← ask (.typeAlias id ((← get).typeAlias id).name.span)
  for (name, member) in (← get).packages.toList.flatMap (·.members) do
    resolveMember ask name member
  for i in List.range (← get).macros.size do
    resolveMacro ask ⟨i⟩

/-- Checks the bodies that wait, at most `n` of them. -/
def checkPendingTo (ask : Asker) : Nat → Check Unit
  | 0 => Run.stop .depth
  | n + 1 => do
    let c ← get
    match c.pending with
    | [] => return ()
    | id :: rest => do
      set { c with pending := rest, bodyDepth := (c.global id).depth }
      let body ← checkBody ask id
      modify fun c => { c with bodies := c.bodies.push body }
      checkPendingTo ask n

/-- How many bodies a program may have, those of instances included. -/
def bodyBound : Nat := 1000000000

/-- Whether a type is that of an entry point. -/
def isEntryType (t : Ty) : Bool :=
  match t.shape with
  | .func [] false returns =>
    match returns.shape with
    | .void | .int .w32 => true
    | _ => false
  | _ => false

/-- Checks the entry point of the program. -/
def checkEntry (ask : Asker) : Check Unit := do
  let c ← get
  let name := c.options.entryPackage ++ "::" ++ c.options.entryFunction
  let member := (c.findPackage c.options.entryPackage).bind fun id =>
    (c.package id).member? c.options.entryFunction
  match member with
  | none =>
    if c.options.requireEntry then Run.reject (.missingEntryPoint name) .null else return ()
  | some (.global id) => do
    let g := c.global id
    if !g.isFunction then
      Run.reject (.invalidEntryPoint name) .null
    let t ← ask (.global id g.name.span)
    if !isEntryType t || g.isExternal then
      Run.reject (.invalidEntryPoint name) g.name.span
    modify fun c => { c with entry := some id }
  | some _ => Run.reject (.invalidEntryPoint name) .null

/-- Checks the files of a program, with the answers to queries given. -/
def checkModulesWith (ask : Asker) (files : List Surface.Module) : Check Unit := do
  for file in files do
    declareModule file
  requireUnique
  resolveDeclarations ask
  checkPendingTo ask bodyBound
  checkEntry ask

/-- Checks the files of a program. -/
def checkModules (files : List Surface.Module) : Check Unit := checkModulesWith answer files

end OwnLang.Check
