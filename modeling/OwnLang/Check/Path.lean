import OwnLang.Check.Type

/-!
# Resolving paths of values

A simple name stands for the local that is declared last among those visible, for a field of `this`
inside methods, or for a member of a package. A longer path names a member of a package or of a
struct; with type arguments it names what a template makes for them.
-/

namespace OwnLang.Check

open Surface (Ident TypeExpr)

/-- What a path of a value stands for. -/
inductive Referent where
  | slot (id : LocalId)
  | global (id : GlobalId)
  /-- A field of `this`, named without the receiver. -/
  | field (this : LocalId) (id : StructId) (index : Nat)

/-- The local or the field of `this` that a simple name stands for. -/
def innerReferent? (c : Context) (name : String) : Option Referent :=
  match c.frame with
  | none => none
  | some f =>
    match f.lookup name, f.receiver with
    | some id, _ => some (.slot id)
    | none, some (this, id) => ((c.struct id).fieldIndex? name).map (.field this id)
    | none, none => none

/-- The struct that the path in front of a member stands for. -/
def structOfPath (ask : Asker) (path : List Ident) (scope : Scope) : Check StructId := do
  let span := Ident.pathSpan path
  match ← Run.ofExcept ((← get).memberOfPath path scope) with
  | some (.struct id) => return id
  | some (.typeAlias id) => do
    let t ← ask (.typeAlias id span)
    match t.shape.struct? with
    | some id => return id
    | none => Run.reject (.notAStruct t.shape.display) span
  | _ => Run.reject (.unknownType (Ident.pathText path)) span

/-- The method or static function of a struct. -/
def memberOfStruct (ask : Asker) (path : List Ident) (member : Ident) (scope : Scope) :
    Check Referent := do
  let id ← structOfPath ask path scope
  ask (.layout id (Ident.pathSpan path))
  let d := (← get).struct id
  match d.member? member.name with
  | some function => return .global function
  | none => Run.reject (.memberNotFound member.name d.display) member.span

/-- What a path with type arguments stands for. -/
def templateReferent (ask : Asker) (path : List Ident) (args : List TypeExpr) (scope : Scope) :
    Check Referent := do
  let span := Ident.pathSpan path
  let name := Ident.pathText path
  match ← Run.ofExcept ((← get).memberOfPath path scope) with
  | some (.template id) => do
    let types ← ask.types args scope
    match ← instantiate ask id types span with
    | .global id => return .global id
    | .struct _ => Run.reject (.undefinedVariable name) span
  | some _ => Run.reject (.notATemplate name) span
  | none => Run.reject (.undefinedVariable name) span

/-- What a member of a package stands for as a value. -/
def memberReferent (path : List Ident) (member : Option Member) : Check Referent :=
  match member with
  | some (.global id) => return .global id
  | some (.template _) =>
    Run.reject (.missingTemplateArguments (Ident.pathText path)) (Ident.pathSpan path)
  | _ => Run.reject (.undefinedVariable (Ident.pathText path)) (Ident.pathSpan path)

/-- What a path without type arguments stands for. -/
def plainReferent (ask : Asker) (path : List Ident) (scope : Scope) : Check Referent := do
  let c ← get
  match path with
  | [name] =>
    match innerReferent? c name.name with
    | some referent => return referent
    | none => memberReferent path (c.visibleMember? scope name.name)
  | [first, second] =>
    match c.findPackage first.name with
    | some id => memberReferent path ((c.package id).member? second.name)
    | none => memberOfStruct ask [first] second scope
  | [package, struct, member] => memberOfStruct ask [package, struct] member scope
  | _ => memberReferent path none

/-- What a path stands for. -/
def resolvePath (ask : Asker) (path : List Ident) (args : List TypeExpr) (scope : Scope) :
    Check Referent :=
  if args.isEmpty then plainReferent ask path scope else templateReferent ask path args scope

end OwnLang.Check
