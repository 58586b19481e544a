import Mathlib
import OwnLang.Proofs.Check.Values
import OwnLang.Proofs.Check.Written
import OwnLang.Proofs.Emit.Growth

/-!
# What is printed

`Printed.reads` reads a format as `printf` does, with the values behind it: each conversion takes a value
of its type. `Shows` says what the value of a type prints, however deep types are nested in it. The
instructions that take it apart, and those that make texts of its parts, are lines of the function, and the
texts are constants of the module. A `Page` has both of them.

Emission never takes back what it emitted. So what a part of it writes is stated for every page that the
state behind it is on (`Emit.Writes`), and the parts of a whole are on the pages that the whole is on. In
the order of the definitions, the operand of an expression has the expression's type, and the rendering of
a value is read as what the value shows.
-/

namespace OwnLang

open Ir (Operand)
open OwnLang.Core (Values)

/-! ## Formats -/

/-- What comes out of a format: a character, or a value by its conversion. -/
inductive Printed where
  | char (c : Char)
  | value (v : Operand)

namespace Printed

/-- A text as it is. -/
def text (s : String) : List Printed := s.toList.map .char

/-- How `printf` reads a format. Each of the conversions `%lld`, `%d` and `%s` takes the next value, which has to be of
its type, and `%%` stands for a percent sign. The format is read to its end, and all values are taken. -/
def reads : List Char → List Operand → Option (List Printed)
  | [], [] => some []
  | [], _ :: _ => none
  | '%' :: '%' :: rest, values => (reads rest values).map (.char '%' :: ·)
  | '%' :: 'l' :: 'l' :: 'd' :: rest, ⟨.int 64, ref⟩ :: values =>
    (reads rest values).map (.value ⟨.int 64, ref⟩ :: ·)
  | '%' :: 'd' :: rest, ⟨.int 32, ref⟩ :: values =>
    (reads rest values).map (.value ⟨.int 32, ref⟩ :: ·)
  | '%' :: 's' :: rest, ⟨.ptr, ref⟩ :: values => (reads rest values).map (.value ⟨.ptr, ref⟩ :: ·)
  | '%' :: _, _ => none
  | '\x00' :: _, _ => none
  | c :: rest, values => (reads rest values).map (.char c :: ·)

/-- A text with other ones in the places of its percent signs. -/
def fill : List Char → List (List Printed) → List Printed
  | [], _ => []
  | '%' :: rest, out :: outs => out ++ fill rest outs
  | c :: rest, outs => .char c :: fill rest outs

variable {format more : List Char} {given others : List Operand} {out : List Printed} {c : Char}

theorem reads_char (hpercent : c ≠ '%') (hnul : c ≠ '\x00') :
    reads (c :: format) given = (reads format given).map (.char c :: ·) := by
  rw [reads] <;> simp [hpercent, hnul]

/-- Formats are read one after another. -/
theorem reads_append (h : reads format given = some out) :
    reads (format ++ more) (given ++ others) = (reads more others).map (out ++ ·) := by
  have hstep {p : Printed} {rest : List Char} {values : List Operand} {out : List Printed}
      (ih : ∀ {out}, reads rest values = some out →
        reads (rest ++ more) (values ++ others) = (reads more others).map (out ++ ·))
      (h : (reads rest values).map (p :: ·) = some out) :
      (reads (rest ++ more) (values ++ others)).map (p :: ·) = (reads more others).map (out ++ ·) := by
    obtain ⟨out, hout, rfl⟩ := Option.map_eq_some_iff.mp h
    rw [ih hout, Option.map_map]
    rfl
  fun_induction reads format given generalizing out with
  | case1 =>
    cases h
    simp
  | case3 rest values ih => exact hstep ih h
  | case4 rest ref values ih => exact hstep ih h
  | case5 rest ref values ih => exact hstep ih h
  | case6 rest ref values ih => exact hstep ih h
  | case9 c rest values _ _ _ _ hpercent hnul ih =>
    rw [List.cons_append, reads_char hpercent hnul]
    exact hstep ih h
  | case2 | case7 | case8 => cases h

theorem fill_char (h : c ≠ '%') (outs : List (List Printed)) :
    fill (c :: format) outs = .char c :: fill format outs := by
  rw [fill]
  simp [h]

end Printed

namespace Rendering

open Printed (text reads)

/-- What a rendering prints. -/
def Reads (r : Rendering) (out : List Printed) : Prop := reads r.format.toList r.args = some out

variable {a b : Rendering} {out out' : List Printed}

theorem Reads.append (ha : a.Reads out) (hb : b.Reads out') : (a ++ b).Reads (out ++ out') := by
  show reads (a.format ++ b.format).toList (a.args ++ b.args) = _
  rw [String.toList_append, Printed.reads_append ha, show reads _ _ = _ from hb]
  rfl

/-- Plain text prints as it is. -/
theorem reads_plain {s : String} (hs : '\x00' ∉ s.toList) : (plain s).Reads (text s) := by
  show reads (String.ofList _).toList [] = some (s.toList.map _)
  rw [String.toList_ofList]
  generalize s.toList = chars at hs
  induction chars with
  | nil => rfl
  | cons c rest ih =>
    obtain ⟨hnul, hrest⟩ := not_or.mp (mt List.mem_cons.mpr hs)
    rw [List.flatMap_cons, List.map_cons]
    split
    · rename_i hpercent
      subst hpercent
      show (reads (rest.flatMap _) []).map _ = _
      rw [ih hrest]
      rfl
    · rename_i hpercent
      show reads (c :: rest.flatMap _) [] = _
      rw [Printed.reads_char hpercent (Ne.symm hnul), ih hrest]
      rfl

/-- A value prints by the conversion that takes its type. -/
theorem reads_conversion {spec : String} {v : Operand}
    (h : (spec, v.type) ∈ [("%lld", Ir.Ty.int 64), ("%d", .int 32), ("%s", .ptr)]) :
    (conversion spec v).Reads [.value v] := by
  obtain ⟨type, ref⟩ := v
  simp only [List.mem_cons, Prod.mk.injEq, List.not_mem_nil, or_false] at h
  rcases h with ⟨rfl, rfl⟩ | ⟨rfl, rfl⟩ | ⟨rfl, rfl⟩
  all_goals simp [Reads, conversion, reads]

theorem reads_joined {rs : List Rendering} {outs : List (List Printed)} (h : List.Forall₂ Reads rs outs) :
    (joined ", " rs).Reads ((text ", ").intercalate outs) := by
  induction h with
  | nil => exact reads_plain List.not_mem_nil
  | cons hfirst hrest ih =>
    cases hrest with
    | nil => simpa [joined] using hfirst
    | cons hsecond hrest =>
      rw [List.intercalate_cons_cons]
      exact (hfirst.append (reads_plain (by decide))).append ih

end Rendering

namespace Ir.Build

theorem result_type (type : Ty) (instr : Instr) (b : Builder) : (result type instr b).1.type = type := by
  unfold result
  rw [bind_apply]
  rcases newTemp b with ⟨_ | _, _⟩ <;> rfl

/-- An instruction with a result comes last in a block that is open. A label stands ahead of it if the block is a new
one. -/
theorem result_code {b : Builder} {f : OpenFunction} (type : Ty) (instr : Instr) (hf : b.function = some f) :
    ∃ k g between, (result type instr b).1 = ⟨type, .temp k⟩ ∧ (result type instr b).2.function = some g ∧
      g.body.toList = f.body.toList ++ between ++ [.result k instr] ∧ g.terminated = false := by
  have hopened := opened_function { b with function := some { f with temps := f.temps + 1 } } rfl
  rw [result_apply type instr hf, push_apply, Builder.addLine, Builder.modifyFunction]
  dsimp only
  rw [hopened]
  refine ⟨f.temps + 1, _, if f.terminated then [.label (.numbered (b.labels + 1))] else [], rfl, rfl, ?_, ?_⟩
  · unfold OpenFunction.opened
    dsimp only
    split <;> simp
  · unfold OpenFunction.opened
    dsimp only
    split <;> simp_all

/-- A string constant has its text. -/
theorem string_text (text : String) (b : Builder) :
    ∃ n, (string text b).1 = ⟨.ptr, .string n⟩ ∧ (string text b).2.strings[n]? = some text := by
  rw [string_apply]
  cases hfound : b.strings.findIdx? (· == text) with
  | some number =>
    obtain ⟨hlt, htext, -⟩ := Array.findIdx?_eq_some_iff_getElem.mp hfound
    refine ⟨number, rfl, ?_⟩
    dsimp only
    rw [Array.getElem?_eq_getElem hlt, eq_of_beq htext]
  | none => exact ⟨b.strings.size, rfl, by simp⟩

end Ir.Build

/-! ## Pages -/

/-- The code of a function, the string constants of its module, and the program that it belongs to. -/
structure Page where
  context : Context
  lines : List Ir.Line
  text? : Nat → Option String

namespace Emitter

variable {s t : Emitter} {page : Page}

/-- The code of the function that is open. -/
def code (s : Emitter) : List Ir.Line := (s.builder.function.map (·.body.toList)).getD []

/-- What was emitted stands on a page. -/
structure On (s : Emitter) (page : Page) : Prop where
  context : s.context = page.context
  code : s.code <+: page.lines
  strings : ∀ n text, s.builder.strings[n]? = some text → page.text? n = some text

theorem code_eq {f : Ir.OpenFunction} (h : s.builder.function = some f) : s.code = f.body.toList := by
  rw [code, h]
  rfl

theorem Extends.code (h : s.Extends t) : s.code <+: t.code := by
  cases hf : s.builder.function with
  | none =>
    rw [Emitter.code, hf]
    exact List.nil_prefix
  | some f =>
    obtain ⟨g, hg, hfg⟩ := h.builder.function f hf
    rw [code_eq hf, code_eq hg]
    refine List.prefix_iff_getElem?.mpr fun i hi => ?_
    rw [Array.getElem?_toList]
    exact hfg.body i _ (by simp)

/-- What was emitted earlier stands on the page as well. -/
theorem On.before (h : t.On page) (hst : s.Extends t) : s.On page where
  context := hst.context.symm.trans h.context
  code := hst.code.trans h.code
  strings n text htext := h.strings n text (hst.builder.strings n text htext)

/-- A function is open, and the slots of its locals hold addresses. -/
structure Ready (s : Emitter) : Prop where
  isOpen : s.builder.function.isSome
  slots : ∀ a ∈ s.slots, a.1.type = .ptr

theorem Ready.later (h : s.Ready) (hst : s.Extends t) : t.Ready where
  isOpen := by
    obtain ⟨f, hf⟩ := Option.isSome_iff_exists.mp h.isOpen
    obtain ⟨g, hg, -⟩ := hst.builder.function f hf
    rw [hg]
    rfl
  slots := hst.slots ▸ h.slots

end Emitter

namespace Emit

open Emitter (Ready On)
open Ir (Build Builder)

/-- Where emission inside of a function leads. -/
def emission : Way Emitter where
  ready := Ready
  along s t := s.Ready ∧ s.Extends t
  refl h := ⟨h, .refl _⟩
  trans h h' := ⟨h.1, h.2.trans h'.2⟩
  arrives h := h.1.later h.2

variable {α β : Type} {s t : Emitter} {e : Emit α} {f : α → Emit β} {Q Q' : Page → α → Prop}
  {R : Page → β → Prop}

/-- A part of emission writes something on every page that it stands on. -/
def Writes (s : Emitter) (e : Emit α) (Q : Page → α → Prop) : Prop :=
  Run.Yields emission s e fun t a => ∀ page, t.On page → Q page a

theorem writes_pure {a : α} (h : ∀ page, Q page a) : Writes s (pure a) Q :=
  Run.yields_pure fun _ page _ => h page

theorem Writes.mono (he : Writes s e Q) (h : ∀ page a, Q page a → Q' page a) : Writes s e Q' :=
  Run.Yields.mono he fun a _ _ hQ page hpage => h page a (hQ page hpage)

/-- What the first part has written is still there behind the second one. -/
theorem Writes.bind (he : Writes s e Q) (hf : ∀ a t, Writes t (f a) fun page b => Q page a → R page b) :
    Writes s (e >>= f) R := by
  intro hs b u hrun
  obtain ⟨a, t, ha, hb⟩ := Run.bind_eq_ok.mp hrun
  obtain ⟨⟨-, hst⟩, hfirst⟩ := he hs ha
  obtain ⟨⟨-, htu⟩, hlast⟩ := hf a t (hs.later hst) hb
  exact ⟨⟨hs, hst.trans htu⟩, fun page hpage => hlast page hpage (hfirst page (hpage.before htu))⟩

theorem writes_reject (cause : Cause) (span : Span) : Writes s (Run.reject cause span : Emit α) Q :=
  Run.yields_reject cause span

theorem writes_stop (why : Stop) : Writes s (Run.stop why : Emit α) Q := fun _ _ _ hrun => by cases hrun

/-- A part that keeps what was emitted. -/
theorem writes_extending [he : Extending e] (h : ∀ a t, e s = .ok a t → ∀ page, t.On page → Q page a) :
    Writes s e Q := fun hs a t hrun => ⟨⟨hs, he.kept hrun⟩, h a t hrun⟩

/-- Something is emitted whose result does not matter. -/
theorem Writes.seq [Extending e] (hf : ∀ a t, Writes t (f a) R) : Writes s (e >>= f) R :=
  (writes_extending (Q := fun _ _ => True) fun _ _ _ _ _ => trivial).bind fun a t =>
    (hf a t).mono fun _ _ h _ => h

theorem writes_context : Writes s context fun page c => c = page.context := by
  intro hs c t hrun
  cases hrun
  exact ⟨⟨hs, .refl _⟩, fun page hpage => hpage.context⟩

theorem writes_irType (ty : Ty) : Writes s (irType ty) fun page a => a = page.context.irType ty :=
  writes_context.bind fun _ _ => writes_pure fun _ h => congrArg (Context.irType · ty) h

theorem writes_symbolOf (id : GlobalId) :
    Writes s (symbolOf id) fun page a => a = .symbol (page.context.global id).symbol :=
  writes_context.bind fun _ _ => writes_pure fun _ h => congrArg (fun c => Ir.Ref.symbol (c.global id).symbol) h

/-- An instruction with a result stands on the page. -/
theorem writes_result (type : Ir.Ty) (instr : Ir.Instr) : Writes s (build (Build.result type instr))
    fun page a => ∃ k, a = ⟨type, .temp k⟩ ∧ .result k instr ∈ page.lines := by
  intro hs a t hrun
  obtain ⟨f, hf⟩ := Option.isSome_iff_exists.mp hs.isOpen
  obtain ⟨k, g, between, hresult, hg, hcode, -⟩ := Build.result_code type instr hf
  refine ⟨⟨hs, Extending.kept hrun⟩, fun page hpage => ⟨k, ?_, hpage.code.subset ?_⟩⟩
  · cases hrun
    exact hresult
  · cases hrun
    rw [Emitter.code_eq hg, hcode]
    exact List.mem_append_right _ List.mem_cons_self

theorem writes_string (text : String) : Writes s (build (Build.string text))
    fun page a => ∃ n, a = ⟨.ptr, .string n⟩ ∧ page.text? n = some text := by
  intro hs a t hrun
  refine ⟨⟨hs, Extending.kept hrun⟩, fun page hpage => ?_⟩
  cases hrun
  obtain ⟨n, hresult, htext⟩ := Build.string_text text s.builder
  exact ⟨n, hresult, hpage.strings n text htext⟩

theorem writes_call (returns : Ir.Ty) (callee : Ir.Ref) (args : List Operand) (signature : Option Ir.Ty) :
    Writes s (build (Build.call returns callee args signature)) fun page a => a.type = returns ∧
      (returns.isVoid = false → ∃ k, a = ⟨returns, .temp k⟩ ∧
        .result k (.call (signature.getD returns) callee args) ∈ page.lines) := by
  cases hvoid : returns.isVoid with
  | true =>
    obtain rfl : returns = .void := by cases returns <;> first | rfl | cases hvoid
    intro hs a t hrun
    refine ⟨⟨hs, Extending.kept hrun⟩, fun page _ => ?_⟩
    cases hrun
    exact ⟨rfl, nofun⟩
  | false =>
    have hresult : Build.call returns callee args signature =
        Build.result returns (.call (signature.getD returns) callee args) := if_neg (by simp [hvoid])
    rw [hresult]
    refine (writes_result returns _).mono fun page a ⟨k, ha, hline⟩ => ⟨?_, fun _ => ⟨k, ha, hline⟩⟩
    rw [ha]

theorem writes_slot (id : LocalId) : Writes s (slot id) fun _ a => a.1.type = .ptr := by
  intro hs a t hrun
  refine ⟨⟨hs, Extending.kept hrun⟩, fun page _ => ?_⟩
  obtain ⟨_, _, hget, hrun⟩ := Run.bind_eq_ok.mp hrun
  cases hget
  cases hslot : s.slots[id.index]? with
  | none =>
    rw [hslot] at hrun
    cases hrun
  | some found =>
    rw [hslot] at hrun
    cases hrun
    exact hs.slots _ (Array.mem_of_getElem? hslot)

end Emit

/-! ## Types of operands -/

namespace Context

variable {c : Context} {t : Ty}

theorem irType_int {width : Width} (h : t.shape = .int width) : c.irType t = .int width.bits := by
  cases t
  cases h
  rfl

theorem irType_bool (h : t.shape = .bool) : c.irType t = .int 1 := by
  cases t
  cases h
  rfl

theorem irType_func {params : List Ty} {variadic : Bool} {returns : Ty}
    (h : t.shape = .func params variadic returns) : c.irType t = .ptr := by
  cases t
  cases h
  rfl

theorem irType_pointee {target : Ty × Bool} (h : t.shape.pointee? = some target) : c.irType t = .ptr := by
  obtain ⟨shape, name⟩ := t
  cases shape <;> first | rfl | cases h

theorem irType_unsized (h : t.shape.isUnsizedArray) : c.irType t = .ptr := by
  obtain ⟨shape, name⟩ := t
  cases shape with
  | array element constant size =>
    cases size with
    | none => rfl
    | some n => cases h
  | _ => cases h

theorem irType_string (h : t.shape.isString) : c.irType t = .ptr := by
  refine irType_unsized ?_
  unfold Shape.isString at h
  split at h
  · rename_i hshape
    rw [hshape]
    rfl
  · cases h

theorem irType_sized {element : Ty} {constant : Bool} {size : Nat}
    (h : t.shape = .array element constant (some size)) : c.irType t = .array size (c.irType element) := by
  cases t
  cases h
  rfl

theorem irType_struct {id : StructId} (h : t.shape.struct? = some id) :
    c.irType t = .struct (c.struct id).symbol := by
  obtain ⟨shape, name⟩ := t
  cases shape with
  | struct id' name => cases h; rfl
  | _ => cases h

/-- What is converted as an address is one. -/
theorem irType_address {a b : Ty} (h : a.shape.convertsPointer b.shape ∨ a.shape.viewsArray b.shape) :
    c.irType a = .ptr ∧ c.irType b = .ptr := by
  obtain ⟨a, name⟩ := a
  obtain ⟨b, name'⟩ := b
  rcases h with h | h
  · cases a <;> cases b <;> first | exact ⟨rfl, rfl⟩ | cases h
  · change Shape.viewsArray a b = true at h
    unfold Shape.viewsArray at h
    split at h
    · exact ⟨rfl, rfl⟩
    · cases h

end Context

namespace Emit

open Ir (Build)
open OwnLang.Core (TypeEnv)

variable {s : Emitter} {Γ : TypeEnv}

theorem types_constant {t : Ty} {k : Option Const} {known : Const} (hknown : literal? t k = some known)
    (hfits : ∀ v, k = some v → v.Fits t.shape) :
    Writes s (constantOperand known t) fun page o => o.type = page.context.irType t := by
  have hint (n : Int) : Writes s (constantOperand (.int n) t) fun page o => o.type = page.context.irType t :=
    (writes_irType t).bind fun _ _ => writes_pure fun _ h => h
  unfold literal? at hknown
  split at hknown
  · cases hknown
    exact hint _
  · cases hknown
    exact hint _
  · rename_i hshape
    have := hfits _ rfl
    rw [hshape] at this
    cases this
  · rename_i hshape
    cases hknown
    exact writes_pure fun _ => (Context.irType_bool hshape).symm
  · cases hknown

theorem types_emitCast {value : Operand} {how : Core.Cast} {e : Core.Expr} {t : Ty} {k : Option Const}
    {span : Span} (h : (Core.Expr.mk (.cast e how) t k span).Typed Γ) :
    Writes s (emitCast value how) fun page o => value.type = page.context.irType e.type →
      o.type = page.context.irType t := by
  cases h with
  | castPointer he ht =>
    refine writes_pure fun page hvalue => ?_
    obtain ⟨hsource, htarget⟩ := Context.irType_address (c := page.context) ht
    rw [hvalue, hsource, htarget]
  | castInt he hsource ht hne =>
    have hconvert (how : Ir.Conversion) (width : Width) :
        Writes s (build (Build.result (.int width.bits) (.convert how value (.int width.bits)))) fun _ o =>
          o.type = .int width.bits :=
      (writes_result _ _).mono fun _ _ ⟨_, ho, _⟩ => ho ▸ rfl
    unfold emitCast
    dsimp only
    split
    · exact (hconvert _ _).mono fun page o ho _ => ho.trans (Context.irType_int ht).symm
    split
    · exact (hconvert _ _).mono fun page o ho _ => ho.trans (Context.irType_int ht).symm
    · rename_i hup hdown
      refine writes_pure fun page hvalue => ?_
      rw [hvalue, Context.irType_int hsource, Context.irType_int ht]
      exact congrArg Ir.Ty.int (by omega)

theorem types_allocate (size : Operand) : Writes s (allocate size) fun _ o => o.type = .ptr :=
  (writes_call _ _ _ _).mono fun _ _ h => h.1

theorem types_heapCopy (value : Operand) (size : Nat) : Writes s (heapCopy value size) fun _ o => o.type = .ptr :=
  (types_allocate _).bind fun _ _ => .seq fun _ _ => writes_pure fun _ h => h

theorem types_placeAggregate (aggregate : Operand) (size : Emit Nat) [Extending size] (heap : Bool) :
    Writes s (placeAggregate aggregate size heap) fun _ o => o.type = if heap then .ptr else aggregate.type := by
  unfold placeAggregate
  cases heap with
  | true => exact .seq fun _ _ => types_heapCopy _ _
  | false => exact writes_pure fun _ => rfl

theorem types_fillArray (count value : Operand) (element t : Ty) (heap : Bool) :
    Writes s (fillArray count value element t heap) fun page o =>
      o.type = if heap then .ptr else page.context.irType t := by
  unfold fillArray
  refine .seq fun elementType s₁ => ?_
  cases heap with
  | true =>
    exact .seq fun _ _ => .seq fun _ _ => (types_allocate _).bind fun _ _ => .seq fun _ _ => writes_pure fun _ h => h
  | false =>
    refine (writes_irType t).bind fun type _ => .seq fun _ _ => .seq fun _ _ => ?_
    exact (writes_result _ _).mono fun page o ⟨_, ho, _⟩ htype => ho ▸ htype

theorem types_emitAggregate (aggregate : Operand) (index : Nat) (values : List Core.Expr) :
    Writes s (emitAggregate aggregate index values) fun _ o => o.type = aggregate.type := by
  induction values generalizing s aggregate index with
  | nil =>
    unfold emitAggregate
    exact writes_pure fun _ => rfl
  | cons part rest ih =>
    unfold emitAggregate
    refine .seq fun value _ => (writes_result _ _).bind fun next _ => (ih next (index + 1)).mono
      fun _ o ho ⟨_, hnext, _⟩ => ?_
    rw [ho, hnext]

theorem returns_shortCircuit {decided : Bool} {left right : Emit Operand} :
    (shortCircuit decided left right).Returns fun o => o.type = .int 1 := by
  have hresult (instr : Ir.Instr) :
      (build (Build.result (.int 1) instr)).Returns fun o => o.type = .int 1 := by
    intro s o t hrun
    cases hrun
    exact Build.result_type _ _ _
  unfold shortCircuit
  refine Run.returns_bind fun a => Run.returns_bind fun _ => Run.returns_bind fun other =>
    Run.returns_bind fun done => ?_
  split
  all_goals
    exact Run.returns_bind fun _ => Run.returns_bind fun _ => Run.returns_bind fun b =>
      Run.returns_bind fun _ => Run.returns_bind fun _ => hresult _

mutual

/-- The operand of an expression has its type. -/
theorem types_emitExpr : (e : Core.Expr) → e.Typed Γ → Values e.parts → ∀ s,
    Writes s (emitExpr e) fun page o => o.type = page.context.irType e.type
  | .mk kind t constant span, ht, hv, s => by
    obtain ⟨hvalue, hbelow⟩ := Core.Expr.values_parts.mp hv
    have hkind := types_emitKind kind ht hvalue hbelow s
    unfold emitExpr
    cases hknown : literal? t constant with
    | none => exact hkind
    | some known => exact types_constant hknown hvalue.fits

theorem types_emitKind {t : Ty} {k : Option Const} {span : Span} : (kind : Core.ExprKind) →
    (Core.Expr.mk kind t k span).Typed Γ → (Core.Expr.mk kind t k span).IsValue → Values kind.parts → ∀ s,
      Writes s (emitKind t span kind) fun page o => o.type = page.context.irType t
  | .int n, ht, hvalue, hbelow, s => by
    unfold emitKind
    exact (writes_irType t).bind fun _ _ => writes_pure fun _ h => h
  | .bool b, ht, hvalue, hbelow, s => by
    cases ht with
    | bool ht =>
      unfold emitKind
      exact writes_pure fun _ => (Context.irType_bool ht).symm
  | .str text, ht, hvalue, hbelow, s => by
    cases ht with
    | str ht =>
      unfold emitKind
      refine (writes_string text).mono fun page o ⟨_, ho, _⟩ => ?_
      rw [ho, Context.irType_unsized (by rw [ht]; rfl)]
  | .load place, ht, hvalue, hbelow, s => by
    cases ht with
    | load hplace =>
      unfold emitKind
      exact .seq fun address _ => (writes_irType place.type).bind fun type _ =>
        (writes_result _ _).mono fun page o ⟨_, ho, _⟩ htype => ho ▸ htype
  | .function id, ht, hvalue, hbelow, s => by
    obtain ⟨params, variadic, returns, hshape⟩ := hvalue.function id rfl
    unfold emitKind
    exact (writes_symbolOf id).bind fun _ _ => writes_pure fun page _ => (Context.irType_func hshape).symm
  | .call callee args, ht, hvalue, hbelow, s => by
    cases ht with
    | call hcallee hshape hargs hfixed hothers =>
      unfold emitKind
      rw [hshape]
      refine .seq fun target _ => .seq fun values _ => writes_context.bind fun c _ => ?_
      exact (writes_call _ _ _ _).mono fun page o ho hc => ho.1.trans (congrArg (Context.irType · t) hc)
  | .macroCall id args, ht, hvalue, hbelow, s => absurd rfl (hvalue.noMacro id args)
  | .binary op left right, ht, hvalue, hbelow, s => by
    have hboth (instr : Operand → Ir.Ref → Ir.Instr) : Writes s
        (bothOperands t instr (emitExpr left) (emitExpr right)) fun page o => o.type = page.context.irType t :=
      .seq fun a _ => .seq fun b _ => (writes_irType t).bind fun type _ =>
        (writes_result _ _).mono fun page o ⟨_, ho, _⟩ htype => ho ▸ htype
    have hgrowing : Growing (fun _ => False) _ (emitKind t span (.binary op left right)) :=
      growing_emitKind t span _
    have hextending := hgrowing.extending
    unfold emitKind at hextending ⊢
    cases hhow : evaluation op with
    | arithmetic code => exact hboth _
    | comparison how => exact hboth _
    | shortCircuit decided =>
      have hbool : t.shape = .bool := by
        cases ht with
        | arithmetic hop => cases op <;> first | exact absurd hop (by decide) | cases hhow
        | comparison _ _ _ ht => exact ht
        | logical _ _ _ ht => exact ht
      rw [hhow] at hextending
      refine writes_extending fun o t' hrun page _ => ?_
      rw [returns_shortCircuit hrun, Context.irType_bool hbool]
  | .unary op operand, ht, hvalue, hbelow, s => by
    have hof : operand.Typed Γ ∧ t = operand.type := by
      cases ht with
      | neg he _ => exact ⟨he, rfl⟩
      | not he _ => exact ⟨he, rfl⟩
    obtain ⟨hoperand, rfl⟩ := hof
    unfold emitKind
    exact (types_emitExpr operand hoperand hbelow s).bind fun value _ =>
      (writes_result _ _).mono fun page o ⟨_, ho, _⟩ hvalue => ho ▸ hvalue
  | .address place, ht, hvalue, hbelow, s => by
    cases ht with
    | address hplace ht =>
      unfold emitKind
      exact (types_emitPlace place hplace hbelow s).mono fun page o ho =>
        ho.trans (Context.irType_pointee (by rw [ht]; rfl)).symm
  | .cast value how, ht, hvalue, hbelow, s => by
    have htyped : value.Typed Γ := by cases ht <;> assumption
    unfold emitKind
    exact (types_emitExpr value htyped hbelow s).bind fun o _ => types_emitCast ht
  | .extract base index, ht, hvalue, hbelow, s => by
    unfold emitKind
    exact .seq fun aggregate _ => (writes_irType t).bind fun type _ =>
      (writes_result _ _).mono fun page o ⟨_, ho, _⟩ htype => ho ▸ htype
  | .structInit id values heap, ht, hvalue, hbelow, s => by
    cases ht with
    | structInit hvalues hid hfields hsame =>
      unfold emitKind
      refine writes_context.bind fun c _ => (types_emitAggregate _ _ _).bind fun aggregate _ =>
        (types_placeAggregate _ _ _).mono fun page o ho haggregate hc => ?_
      rw [ho, haggregate, hc]
      cases heap with
      | true => rfl
      | false => exact (Context.irType_struct hid).symm
  | .arrayInit element values heap, ht, hvalue, hbelow, s => by
    cases ht with
    | arrayInit hvalues hsame ht =>
      unfold emitKind
      refine (writes_irType element).bind fun type _ => (types_emitAggregate _ _ _).bind fun aggregate _ =>
        (types_placeAggregate _ _ _).mono fun page o ho haggregate htype => ?_
      rw [ho, haggregate, htype]
      cases heap with
      | true => rfl
      | false => exact (Context.irType_sized ht).symm
  | .arrayFill element size value heap, ht, hvalue, hbelow, s => by
    have hheap : heap = true → ∃ made, t = Core.madeType true made := fun hheap => by
      cases ht
      exact ⟨_, by rw [hheap]⟩
    unfold emitKind
    refine .seq fun count _ => .seq fun content _ => (types_fillArray _ _ _ _ _).mono fun page o ho => ?_
    rw [ho]
    split
    · obtain ⟨made, rfl⟩ := hheap ‹_›
      rfl
    · rfl
  | .new value, ht, hvalue, hbelow, s => by
    cases ht with
    | new hvalue hsame =>
      unfold emitKind
      exact .seq fun size _ => .seq fun o _ => types_heapCopy _ _

/-- The operand of a location is its address. -/
theorem types_emitPlace : (place : Core.Place) → place.Typed Γ → Values place.parts → ∀ s,
    Writes s (emitPlace place) fun _ o => o.type = .ptr
  | .mk kind t constant span, ht, hv, s => by
    unfold emitPlace
    exact types_emitPlaceKind kind ht hv s

theorem types_emitPlaceKind {t : Ty} {constant : Bool} {span : Span} : (kind : Core.PlaceKind) →
    (Core.Place.mk kind t constant span).Typed Γ → Values kind.parts → ∀ s,
      Writes s (emitPlaceKind t kind) fun _ o => o.type = .ptr
  | .slot id, ht, hv, s => by
    unfold emitPlaceKind
    exact (writes_slot id).bind fun _ _ => writes_pure fun _ h => h
  | .global id, ht, hv, s => by
    unfold emitPlaceKind
    exact .seq fun _ _ => writes_pure fun _ => rfl
  | .deref pointer, ht, hv, s => by
    cases ht with
    | deref hpointer ht hsized =>
      unfold emitPlaceKind
      exact (types_emitExpr pointer hpointer hv s).mono fun page o ho => ho.trans (Context.irType_pointee ht)
  | .field base id index, ht, hv, s => by
    unfold emitPlaceKind
    exact .seq fun _ _ => .seq fun _ _ => (writes_result _ _).mono fun _ _ ⟨_, ho, _⟩ => ho ▸ rfl
  | .element data index, ht, hv, s => by
    unfold emitPlaceKind
    exact .seq fun _ _ => .seq fun _ _ => .seq fun _ _ => (writes_result _ _).mono fun _ _ ⟨_, ho, _⟩ => ho ▸ rfl

end

end Emit

/-! ## What values show -/

open Printed (text)

mutual

/-- What a value of a type prints, with its parts and what texts are made of it on a page. -/
inductive Shows (page : Page) : Operand → Ty → List Printed → Prop
  | int64 {v : Operand} {t : Ty} (ht : t.shape = .int .w64) : Shows page v t [.value v]
  | int32 {v : Operand} {t : Ty} (ht : t.shape = .int .w32) : Shows page v t [.value v]
  | small {v : Operand} {t : Ty} {width : Width} {k : Nat} (ht : t.shape = .int width)
      (hwidth : width.bits < 32) (hline : .result k (.convert .sext v (.int 32)) ∈ page.lines) :
      Shows page v t [.value ⟨.int 32, .temp k⟩]
  | bool {v : Operand} {t : Ty} {yes no k : Nat} (ht : t.shape = .bool)
      (hyes : page.text? yes = some "true") (hno : page.text? no = some "false")
      (hline : .result k (.select v ⟨.ptr, .string yes⟩ ⟨.ptr, .string no⟩) ∈ page.lines) :
      Shows page v t [.value ⟨.ptr, .temp k⟩]
  | string {v : Operand} {t : Ty} (ht : t.shape.isString) : Shows page v t [.value v]
  | array {v : Operand} {t element : Ty} {constant : Bool} {size : Nat} {outs : List (List Printed)}
      (ht : t.shape = .array element constant (some size))
      (hparts : ShowsParts page v 0 (List.replicate size ("", element)) outs) :
      Shows page v t (text "[" ++ (text ", ").intercalate outs ++ text "]")
  | struct {v : Operand} {t : Ty} {id : StructId} {outs : List (List Printed)} (ht : t.shape.struct? = some id)
      (hparts : ShowsParts page v 0
        ((page.context.struct id).fields.map fun f => (f.name.name ++ ": ", f.type)) outs) :
      Shows page v t (text ((page.context.struct id).name.name ++ "\x7b") ++ (text ", ").intercalate outs ++
        text "\x7d")
  | pointer {v : Operand} {t : Ty} {method : GlobalId} {k : Nat}
      (ht : Emit.stringMethod? page.context t = some method)
      (hline : .result k (.call .ptr (.symbol (page.context.global method).symbol) [v]) ∈ page.lines) :
      Shows page v t [.value ⟨.ptr, .temp k⟩]

/-- What the parts of a value from position `n` on print, each behind a text. -/
inductive ShowsParts (page : Page) : Operand → Nat → List (String × Ty) → List (List Printed) → Prop
  | nil {v : Operand} {n : Nat} : ShowsParts page v n [] []
  | cons {v : Operand} {n k : Nat} {label : String} {t : Ty} {out : List Printed} {parts : List (String × Ty)}
      {outs : List (List Printed)} (hline : .result k (.extract v n) ∈ page.lines)
      (hpart : Shows page ⟨page.context.irType t, .temp k⟩ t out) (hrest : ShowsParts page v (n + 1) parts outs) :
      ShowsParts page v n ((label, t) :: parts) ((text label ++ out) :: outs)

end

namespace Emit

open Ir (Build)
open Rendering (reads_plain reads_joined reads_conversion)

variable {s : Emitter} {v : Operand} {t : Ty} {span : Span}

/-- What a part of a value prints behind its text. -/
def ShowsPart (page : Page) (v : Operand) (part : (String × Ty) × Nat) (r : Rendering) : Prop :=
  ∃ k out, .result k (.extract v part.2) ∈ page.lines ∧
    Shows page ⟨page.context.irType part.1.2, .temp k⟩ part.1.2 out ∧ r.Reads (text part.1.1 ++ out)

theorem showsParts {page : Page} {parts : List (String × Ty)} {n : Nat} {rs : List Rendering}
    (h : List.Forall₂ (ShowsPart page v) (parts.zipIdx n) rs) :
    ∃ outs, ShowsParts page v n parts outs ∧ List.Forall₂ Rendering.Reads rs outs := by
  induction parts generalizing n rs with
  | nil =>
    cases h
    exact ⟨[], .nil, .nil⟩
  | cons part parts ih =>
    cases h with
    | cons hpart hrest =>
      obtain ⟨k, out, hline, hshows, hreads⟩ := hpart
      obtain ⟨outs, hparts, houts⟩ := ih hrest
      exact ⟨_, .cons hline hshows hparts, .cons hreads houts⟩

theorem writes_mapM {α β : Type} {l : List α} {f : α → Emit β} {Q : Page → α → β → Prop}
    (h : ∀ a ∈ l, ∀ s, Writes s (f a) fun page b => Q page a b) :
    Writes s (l.mapM f) fun page bs => List.Forall₂ (Q page) l bs := by
  induction l generalizing s with
  | nil => exact writes_pure fun _ => .nil
  | cons a l ih =>
    rw [List.mapM_cons]
    refine (h a List.mem_cons_self s).bind fun b t => ?_
    exact (ih fun a' ha' => h a' (List.mem_cons_of_mem _ ha')).bind fun bs _ =>
      writes_pure fun _ hrest hfirst => .cons hfirst hrest

theorem writes_boolText (value : Operand) : Writes s (boolText value) fun page a => ∃ yes no k,
    page.text? yes = some "true" ∧ page.text? no = some "false" ∧
      .result k (.select value ⟨.ptr, .string yes⟩ ⟨.ptr, .string no⟩) ∈ page.lines ∧ a = ⟨.ptr, .temp k⟩ := by
  refine (writes_string "true").bind fun yes _ => (writes_string "false").bind fun no _ =>
    (writes_result _ _).mono ?_
  rintro page _ ⟨k, rfl, hline⟩ ⟨n, rfl, hno⟩ ⟨m, rfl, hyes⟩
  exact ⟨m, n, k, hyes, hno, hline, rfl⟩

/-- A part of emission renders a value of a type. -/
def Renders (s : Emitter) (e : Emit Rendering) (v : Operand) (t : Ty) : Prop :=
  Writes s e fun page r => page.context.Legible → v.type = page.context.irType t →
    ∃ out, Shows page v t out ∧ r.Reads out

theorem renders_pointer : Renders s (renderPointer v t span) v t := by
  unfold renderPointer
  refine writes_context.bind fun c s₁ => ?_
  cases hmethod : stringMethod? c t with
  | none => exact writes_reject _ _
  | some method =>
    refine (writes_symbolOf method).bind fun callee _ => (writes_call _ _ _ _).bind fun a _ => writes_pure ?_
    rintro page ⟨-, hcall⟩ rfl rfl - -
    obtain ⟨k, rfl, hline⟩ := hcall rfl
    exact ⟨_, .pointer hmethod hline, reads_conversion (by simp)⟩

/-- The parts of a value are extracted, and then rendered. -/
theorem writes_part {P : Page → Prop} {type : Ty} {label : String} {e : Operand → Emit Rendering} {index : Nat}
    (irType : Ir.Ty)
    (h : ∀ part s, Writes s (e part) fun page r => P page → part.type = page.context.irType type →
      ∃ out, Shows page part type out ∧ r.Reads (text label ++ out)) :
    Writes s (extract irType v index >>= e) fun page r => irType = page.context.irType type → P page →
      ShowsPart page v ((label, type), index) r := by
  refine (writes_result _ _).bind fun part _ => (h part _).mono ?_
  rintro page r hshows ⟨k, rfl, hline⟩ rfl hpage
  obtain ⟨out, hout, hreads⟩ := hshows hpage rfl
  exact ⟨k, out, hline, hout, hreads⟩

theorem zipIdx_replicate {α : Type} (size : Nat) (a : α) :
    (List.replicate size a).zipIdx = (List.range size).map fun index => (a, index) := by
  refine List.ext_getElem (by simp) fun i _ _ => by simp

/-- A value is rendered if the structs that it holds are. -/
theorem renders_renderGiven {renderStruct : StructId → Operand → Emit Rendering}
    (h : ∀ id v t s, t.shape.struct? = some id → Renders s (renderStruct id v) v t) :
    Renders s (renderGiven renderStruct span v t) v t := by
  induction v, t using renderGiven.induct generalizing s with
  | case1 v writtenAs =>
    exact writes_pure fun page _ hv => ⟨_, .int64 rfl, reads_conversion (by simp [hv, Context.irType, Width.bits])⟩
  | case2 v writtenAs =>
    exact writes_pure fun page _ hv => ⟨_, .int32 rfl, reads_conversion (by simp [hv, Context.irType, Width.bits])⟩
  | case3 v width writtenAs h64 h32 =>
    have hwidth : width.bits < 32 := by cases width <;> first | decide | exact absurd rfl h64 | exact absurd rfl h32
    rw [renderGiven]
    · refine (writes_result _ _).bind fun a _ => writes_pure ?_
      rintro page ⟨k, rfl, hline⟩ - -
      exact ⟨_, .small rfl hwidth hline, reads_conversion (by simp)⟩
    · exact h64
    · exact h32
  | case4 v writtenAs =>
    refine (writes_boolText v).bind fun a _ => writes_pure ?_
    rintro page ⟨yes, no, k, hyes, hno, hline, rfl⟩ - -
    exact ⟨_, .bool rfl hyes hno hline, reads_conversion (by simp)⟩
  | case5 v element constant size writtenAs ih =>
    rw [renderGiven]
    refine (writes_irType element).bind fun type _ => ?_
    have hpart (index : Nat) (s : Emitter) : Writes s
        (do renderGiven renderStruct span (← extract type v index) element) fun page r =>
          type = page.context.irType element → page.context.Legible →
            ShowsPart page v (("", element), index) r :=
      writes_part type fun part _ => ih part
    refine (writes_mapM fun index _ s => hpart index s).bind fun rs _ => writes_pure ?_
    intro page hrs htype hlegible hv
    have hparts : List.Forall₂ (ShowsPart page v) (List.replicate size ("", element)).zipIdx rs := by
      rw [zipIdx_replicate, List.forall₂_map_left_iff]
      exact hrs.imp fun index r hr => hr htype hlegible
    obtain ⟨outs, houts, hreads⟩ := showsParts hparts
    exact ⟨_, .array rfl houts, ((reads_plain (by decide)).append (reads_joined hreads)).append
      (reads_plain (by decide))⟩
  | case6 v id name writtenAs => exact h id v _ s rfl
  | case7 v t h64 h32 hint hbool harray hstruct hstring =>
    rw [renderGiven, if_pos hstring]
    · refine writes_pure fun page _ hv => ⟨_, .string hstring, reads_conversion ?_⟩
      rw [hv, Context.irType_string hstring]
      simp
    all_goals assumption
  | case8 v t h64 h32 hint hbool harray hstruct hstring =>
    rw [renderGiven, if_neg hstring]
    · exact renders_pointer
    all_goals assumption

theorem writes_renderField {renderTy : Operand → Ty → Emit Rendering} {field : Field} {index : Nat}
    (h : ∀ part s, Renders s (renderTy part field.type) part field.type) :
    Writes s (renderField renderTy v field index) fun page r =>
      page.context.Legible ∧ '\x00' ∉ field.name.name.toList →
        ShowsPart page v ((field.name.name ++ ": ", field.type), index) r := by
  refine (writes_irType field.type).bind fun type _ => (writes_part type fun part s => ?_).mono
    fun page r hr htype => hr htype
  refine (h part s).bind fun r _ => writes_pure ?_
  rintro page hshows ⟨hlegible, hname⟩ htype
  obtain ⟨out, hout, hreads⟩ := hshows hlegible htype
  exact ⟨out, hout, (reads_plain (by simp [hname])).append hreads⟩

theorem renders_renderStructTo (n : Nat) (id : StructId) (v : Operand) (t : Ty) (s : Emitter)
    (ht : t.shape.struct? = some id) : Renders s (renderStructTo span n id v) v t := by
  induction n generalizing id v t s with
  | zero => exact writes_stop _
  | succ n ih =>
    rw [renderStructTo]
    refine writes_context.bind fun c _ => ?_
    have hfield (field : Field) (index : Nat) (hmem : field ∈ (c.struct id).fields) (s : Emitter) : Writes s
        (renderField (renderGiven (renderStructTo span n) span) v field index) fun page r => c = page.context →
          page.context.Legible → ShowsPart page v ((field.name.name ++ ": ", field.type), index) r :=
      (writes_renderField fun part s => renders_renderGiven ih).mono fun page r hr hc hlegible =>
        hr ⟨hlegible, (hlegible id).2 field (hc ▸ hmem)⟩
    refine (writes_mapM fun part hpart => hfield part.1 part.2 (List.fst_mem_of_mem_zipIdx hpart)).bind
      fun rs _ => writes_pure ?_
    rintro page hrs rfl hlegible hv
    have hparts : List.Forall₂ (ShowsPart page v)
        ((page.context.struct id).fields.map fun f => (f.name.name ++ ": ", f.type)).zipIdx rs := by
      rw [List.zipIdx_map, List.forall₂_map_left_iff]
      exact hrs.imp fun part r hr => hr rfl hlegible
    obtain ⟨outs, houts, hreads⟩ := showsParts hparts
    refine ⟨_, .struct ht houts, ((reads_plain ?_).append (reads_joined hreads)).append (reads_plain (by decide))⟩
    simp [(hlegible id).1]

/-- A value is rendered as what its type shows. -/
theorem renders_render : Renders s (render v t span) v t :=
  writes_context.bind fun c _ =>
    (renders_renderGiven (renders_renderStructTo (c.structs.size + 1))).mono fun _ _ h _ => h

end Emit

end OwnLang
