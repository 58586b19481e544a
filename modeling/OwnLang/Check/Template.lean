import OwnLang.Check.Declare

/-!
# Instances of templates

An instance is recorded before its signature or layout is resolved, so that what refers to it from
there reaches the same entity. Requests for type arguments that were asked for before are answered
from the record.
-/

namespace OwnLang.Check

/-- The path of a template. -/
def templatePath (c : Context) (t : TemplateDef) : String :=
  (c.package t.package).name ++ "::" ++ t.name.name

/-- The path of a template with its type arguments. -/
def instancePath (path : String) (args : List Ty) : String :=
  path ++ "<" ++ ", ".intercalate (args.map (·.display)) ++ ">"

/-- The scope of a template's declaration, with the types that stand for its parameters. Of two
parameters of one name the last one counts. -/
def instanceScope (t : TemplateDef) (args : List Ty) : Scope :=
  { package := t.package
    imports := t.scope.imports
    bindings := ((t.params.map (·.name)).zip args).reverse }

/-- Declares, records and resolves an instance. -/
def makeInstance (ask : Asker) (id : TemplateId) (t : TemplateDef) (path : String) (args : List Ty)
    (number : Nat) (span : Span) : Check Entity := do
  let names : InstanceNames := { number, display := instancePath path args }
  let entity ← match ← declareEntity t.item.kind (instanceScope t args) (some names) with
    | some (.struct id) => pure (.struct id)
    | some (.global id) => pure (.global id)
    | _ => Run.reject (.notATemplate path) span
  modify (·.addInstance id { args, entity })
  detached <| match entity with
    | .struct id => ask (.layout id span)
    | .global id => do
      let _ ← ask (.global id span)
      return ()
  return entity

/-- What a template makes for type arguments, made on the first request. -/
def instantiate (ask : Asker) (id : TemplateId) (args : List Ty) (span : Span) : Check Entity := do
  let c ← get
  let t := c.template id
  let path := templatePath c t
  if args.length != t.params.length then
    Run.reject (.templateArity path t.params.length args.length) span
  else if let some entity := t.instance? args then
    return entity
  else if c.options.maxInstantiationDepth ≤ c.instantiationDepth then
    Run.reject (.instantiationDepth path c.options.maxInstantiationDepth) span
  else
    let number := c.instanceCount + 1
    set { c with instanceCount := number, inProgress := (id, args) :: c.inProgress }
    (makeInstance ask id t path args number span).andFinally fun d =>
      { d with inProgress := d.inProgress.tail }

end OwnLang.Check
