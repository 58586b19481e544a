import OwnLang.Emit.Release
import OwnLang.Source.Map

/-!
# Formatted output

`print` and `println` put their values in the place of the `%` signs of a constant text and hand the
whole to `printf`. A `Rendering` is a part of the format with the values that its conversions take.
Arrays are shown as `[a, b]`, structs as `Name{f: v}`, and a pointer to a struct by what the
struct's method `_string` returns.
-/

namespace OwnLang

/-- A part of a `printf` format, and the values that its conversions take. -/
structure Rendering where
  format : String
  args : List Ir.Operand

namespace Rendering

instance : Append Rendering where
  append a b := ⟨a.format ++ b.format, a.args ++ b.args⟩

/-- Plain text, in which `printf` wants `%` doubled. -/
def plain (text : String) : Rendering :=
  ⟨String.ofList (text.toList.flatMap fun c => if c = '%' then ['%', '%'] else [c]), []⟩

/-- One value, by its conversion. -/
def conversion (spec : String) (value : Ir.Operand) : Rendering := ⟨spec, [value]⟩

/-- Renderings one after another, with a text between them. -/
def joined (separator : String) : List Rendering → Rendering
  | [] => plain ""
  | [r] => r
  | r :: rest => r ++ plain separator ++ joined separator rest

end Rendering

namespace Emit

open Ir (Operand)

/-- `true` or `false`. -/
def boolText (value : Operand) : Emit Operand := do
  let yes ← build (Ir.Build.string "true")
  let no ← build (Ir.Build.string "false")
  build (Ir.Build.result .ptr (.select value yes no))

/-- The method of a struct that makes a text of it. -/
def stringMethod? (c : Context) (t : Ty) : Option GlobalId := do
  let (target, _) ← t.shape.pointee?
  let id ← target.shape.struct?
  let method ← (c.struct id).member? "_string"
  let (params, _, returns) ← c.functionType? method
  if returns.shape.isString && params.length == 1 then some method else none

/-- A pointer to a struct by the text that the struct makes of itself. -/
def renderPointer (value : Operand) (t : Ty) (span : Span) : Emit Rendering := do
  match stringMethod? (← context) t with
  | none => Run.reject (.unprintableType t.shape.display) span
  | some method => do
    let text ← build (Ir.Build.call .ptr (← symbolOf method) [value] none)
    return .conversion "%s" text

/-- The rendering of a value, with that of structs given. -/
def renderGiven (renderStruct : StructId → Operand → Emit Rendering) (span : Span)
    (value : Operand) : Ty → Emit Rendering
  | .mk (.int .w64) _ => return .conversion "%lld" value
  | .mk (.int .w32) _ => return .conversion "%d" value
  | .mk (.int _) _ => do
    let widened ← build (Ir.Build.result (.int 32) (.convert .sext value (.int 32)))
    return .conversion "%d" widened
  | .mk .bool _ => return .conversion "%s" (← boolText value)
  | .mk (.array element _ (some size)) _ => do
    let type ← irType element
    let parts ← (List.range size).mapM fun index => do
      let part ← extract type value index
      renderGiven renderStruct span part element
    return .plain "[" ++ .joined ", " parts ++ .plain "]"
  | .mk (.struct id _) _ => renderStruct id value
  | t =>
    if t.shape.isString then return .conversion "%s" value else renderPointer value t span

/-- A field behind its name. -/
def renderField (renderTy : Operand → Ty → Emit Rendering) (value : Operand) (field : Field)
    (index : Nat) : Emit Rendering := do
  let part ← extract (← irType field.type) value index
  return .plain (field.name.name ++ ": ") ++ (← renderTy part field.type)

/-- The rendering of a struct that nests others at most `n` deep. -/
def renderStructTo (span : Span) : Nat → StructId → Operand → Emit Rendering
  | 0, _, _ => Run.stop .depth
  | n + 1, id, value => do
    let d := (← context).struct id
    let parts ← d.fields.zipIdx.mapM fun (field, index) =>
      renderField (renderGiven (renderStructTo span n) span) value field index
    return .plain (d.name.name ++ "\x7b") ++ .joined ", " parts ++ .plain "\x7d"

/-- The rendering of a value. Structs cannot nest deeper than there are structs. -/
def render (value : Operand) (t : Ty) (span : Span) : Emit Rendering := do
  renderGiven (renderStructTo span ((← context).structs.size + 1)) span value t

/-- The type of `printf`. -/
def printfType : Ir.Ty := .func (.int 32) [.ptr] true

/-- Prints a rendering. -/
def callPrintf (rendering : Rendering) : Emit Unit := do
  let format ← build (Ir.Build.string rendering.format)
  let _ ← build (Ir.Build.call (.int 32) (.symbol "printf") (format :: rendering.args)
    (some printfType))

end Emit

end OwnLang
