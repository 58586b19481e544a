import OwnLang.Entity.Frame
import OwnLang.Options
import OwnLang.Outcome
import OwnLang.Ty.Display

/-!
# The state of checking

A `Context` holds every entity that was declared so far, the bodies that wait to be checked, and the
frame of the function that is being checked. A `Check` is a run over a context.

Entities are resolved when something needs them. Such a resolution runs `detached`: it sees no
frame, so that it cannot see the locals of the body that asked for it.
-/

namespace OwnLang

/-- A checked function body. -/
structure Body where
  function : GlobalId
  params : List LocalId
  locals : Array Local
  block : Core.Block
  returns : Ty

/-- Everything that checking knows. -/
structure Context where
  options : Options := {}
  packages : Array Package := #[]
  globals : Array Global := #[]
  structs : Array StructDef := #[]
  aliases : Array AliasDef := #[]
  macros : Array MacroDef := #[]
  templates : Array TemplateDef := #[]
  /-- Checked bodies, in the order in which they were checked. -/
  bodies : Array Body := #[]
  warnings : Array Warning := #[]
  entry : Option GlobalId := none
  /-- The function whose body is being checked. -/
  frame : Option Frame := none
  /-- Functions whose bodies are still to be checked, the next in front. -/
  pending : List GlobalId := []
  /-- Instances of templates whose signatures are being resolved, the innermost in front. -/
  inProgress : List (TemplateId × List Ty) := []
  instanceCount : Nat := 0
  /-- How deep instances are nested where the body that is being checked was requested. -/
  bodyDepth : Nat := 0
  loopCount : Nat := 0
deriving Inhabited

namespace Context

instance : Inhabited Global := ⟨{
  package := default, name := default, display := "", symbol := "", constant := true,
  kind := .storage ⟨default, true, none, none⟩, scope := default, type := none,
  state := .declared, value := none, isInstance := false, depth := 0 }⟩

/-- What was never declared cannot be laid out. -/
instance : Inhabited StructDef := ⟨{
  package := default, name := default, display := "", symbol := "", decl := ⟨default, [], []⟩,
  scope := default, fields := [], members := [], state := .resolving, isInstance := false }⟩

instance : Inhabited AliasDef := ⟨{
  package := default, name := default, display := "", target := default, scope := default,
  resolved := none, state := .declared }⟩

instance : Inhabited MacroDef := ⟨{
  package := default, name := default, fullName := "", decl := ⟨default, [], false, none⟩,
  scope := default, params := [], returns := default, state := .declared }⟩

instance : Inhabited TemplateDef := ⟨{
  package := default, name := default, params := [],
  item := ⟨.typeAlias default default, [], default⟩, scope := default, instances := [] }⟩

/-- The package of an identity. -/
def package (c : Context) (id : PackageId) : Package := c.packages[id.index]?.getD default

/-- The global of an identity. -/
def global (c : Context) (id : GlobalId) : Global := c.globals[id.index]?.getD default

/-- The struct of an identity. -/
def struct (c : Context) (id : StructId) : StructDef := c.structs[id.index]?.getD default

/-- The alias of an identity. -/
def typeAlias (c : Context) (id : AliasId) : AliasDef := c.aliases[id.index]?.getD default

/-- The macro of an identity. -/
def macroDef (c : Context) (id : MacroId) : MacroDef := c.macros[id.index]?.getD default

/-- The template of an identity. -/
def template (c : Context) (id : TemplateId) : TemplateDef :=
  c.templates[id.index]?.getD default

/-- The package of a name. -/
def findPackage (c : Context) (name : String) : Option PackageId :=
  (c.packages.findIdx? (·.name == name)).map PackageId.mk

/-- The type of a struct. -/
def structType (c : Context) (id : StructId) : Ty := (Shape.struct id (c.struct id).display).plain

/-- How deep instances of templates are nested at this point: where the body that is being checked
was requested, and the instances that are being resolved. -/
def instantiationDepth (c : Context) : Nat := c.bodyDepth + c.inProgress.length

/-- Changes a global. -/
def modifyGlobal (c : Context) (id : GlobalId) (change : Global → Global) : Context :=
  { c with globals := c.globals.modify id.index change }

/-- Changes a struct. -/
def modifyStruct (c : Context) (id : StructId) (change : StructDef → StructDef) : Context :=
  { c with structs := c.structs.modify id.index change }

/-- Changes an alias. -/
def modifyAlias (c : Context) (id : AliasId) (change : AliasDef → AliasDef) : Context :=
  { c with aliases := c.aliases.modify id.index change }

/-- Changes a macro. -/
def modifyMacro (c : Context) (id : MacroId) (change : MacroDef → MacroDef) : Context :=
  { c with macros := c.macros.modify id.index change }

/-- Changes a package. -/
def modifyPackage (c : Context) (id : PackageId) (change : Package → Package) : Context :=
  { c with packages := c.packages.modify id.index change }

/-- Records what a template has made. -/
def addInstance (c : Context) (id : TemplateId) (made : Instance) : Context :=
  { c with templates := c.templates.modify id.index fun t =>
      { t with instances := t.instances ++ [made] } }

end Context

/-- Runs over a context. -/
abbrev Check (α : Type) : Type := Run Context α

namespace Check

variable {α : Type}

/-- The frame of the function that is being checked. -/
def frame : Check Frame := return (← get).frame.getD default

/-- Changes the frame of the function that is being checked. -/
def modifyFrame (change : Frame → Frame) : Check Unit :=
  modify fun c => { c with frame := c.frame.map change }

/-- Runs `work` without a frame, and puts the frame back whether it succeeds or fails. -/
def detached (work : Check α) : Check α := fun c =>
  (work.andFinally fun d => { d with frame := c.frame }) { c with frame := none }

/-- Adds a warning. -/
def warn (kind : WarningKind) (span : Span) : Check Unit :=
  modify fun c => { c with warnings := c.warnings.push ⟨kind, span⟩ }

/-- The package of a name, made if there is none. -/
def packageId (name : String) : Check PackageId := do
  match (← get).findPackage name with
  | some id => return id
  | none => do
    let id := ⟨(← get).packages.size⟩
    modify fun c => { c with packages := c.packages.push { name } }
    return id

/-- A new loop's identity. -/
def newLoop : Check LoopId := do
  modify fun c => { c with loopCount := c.loopCount + 1 }
  return ⟨(← get).loopCount⟩

end Check

end OwnLang
