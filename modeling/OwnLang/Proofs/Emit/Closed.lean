import Mathlib
import OwnLang.Proofs.Check.Finished
import OwnLang.Proofs.Emit.LinkingBody
import OwnLang.Proofs.Emit.Module

/-!
# Emitted modules are closed

Ahead of its functions a module has the types of all structs, the variables, and the functions that are defined
elsewhere; these refer to nothing but struct types and string constants (`Emitter.Outlined`). What functions refer to
is supplied by one of those parts or by another function. So the module of a checked program introduces whatever it
refers to (`Emit.closed_emitModule`).
-/

namespace OwnLang

open Ir (Build Builder Operand)

/-- What may be referred to outside of functions: the types of structs, and string constants. -/
def Emitter.Outlines (s : Emitter) (name : Ir.Name) : Prop :=
  s.context.IsStruct name ∨ ∃ n < s.builder.strings.size, name = .string n

/-- What the variables and declared functions of a module refer to. -/
structure Emitter.Outlined (s : Emitter) : Prop where
  globals : ∀ g ∈ s.builder.module.globals, ∀ name ∈ g.names, s.Outlines name
  declarations : ∀ d ∈ s.builder.module.declarations, ∀ name ∈ d.names, s.Outlines name

/-- A module declares a function of a name. -/
def Emitter.Declares (s : Emitter) (name : String) : Prop :=
  ∃ d ∈ s.builder.module.declarations, d.name = name

/-- The state ahead of the first definition. -/
structure Emitter.Prepared (s : Emitter) : Prop extends s.Outlined where
  functions : ∀ name ∈ s.builder.functions, s.Declares name

namespace Emitter

variable {s t : Emitter}

theorem Outlines.mono {name : Ir.Name} (h : s.Outlines name) (hcontext : t.context = s.context)
    (hstrings : Ir.Begins s.builder.strings t.builder.strings) : t.Outlines name := by
  unfold Outlines
  rw [hcontext]
  exact h.imp_right fun ⟨n, hn, hname⟩ => ⟨n, hn.trans_le hstrings.size_le, hname⟩

/-- String constants refer to nothing. -/
theorem Outlined.collects (h : s.Outlined) (hcontext : t.context = s.context)
    (hstrings : Ir.Begins s.builder.strings t.builder.strings) (hcollects : s.builder.Collects t.builder) :
    t.Outlined where
  globals g hg name hname := by
    obtain ⟨texts, -, htexts⟩ := hcollects.globals
    rw [← Array.mem_toList_iff, htexts, List.mem_append, Array.mem_toList_iff] at hg
    rcases hg with hg | hg
    · exact (h.globals g hg name hname).mono hcontext hstrings
    · obtain ⟨x, -, rfl⟩ := List.mem_map.mp hg
      exact absurd hname List.not_mem_nil
  declarations d hd name hname :=
    (h.declarations d (hcollects.declarations ▸ hd) name hname).mono hcontext hstrings

theorem Prepared.collects (h : s.Prepared) (hcontext : t.context = s.context)
    (hstrings : Ir.Begins s.builder.strings t.builder.strings) (hcollects : s.builder.Collects t.builder) :
    t.Prepared where
  toOutlined := h.toOutlined.collects hcontext hstrings hcollects
  functions name hname := by
    obtain ⟨d, hd, heq⟩ := h.functions name (hcollects.functions ▸ hname)
    exact ⟨d, hcollects.declarations ▸ hd, heq⟩

theorem Declares.mono {types : List Ir.StructType} {functions : List Ir.Function} {name : String}
    (h : s.Declares name) (hst : s.Defines t types functions) : t.Declares name := by
  obtain ⟨d, hd, heq⟩ := h
  exact ⟨d, hst.declarations d hd, heq⟩

theorem Declares.introduced {name : String} (h : s.Declares name) :
    .symbol name ∈ s.builder.module.introduced := by
  obtain ⟨d, hd, rfl⟩ := h
  simp only [Ir.Module.introduced, List.mem_append, List.mem_map, Array.mem_toList_iff]
  exact .inl (.inr ⟨d, hd, rfl⟩)

theorem Defines.introduced {types : List Ir.StructType} {functions : List Ir.Function}
    (h : s.Defines t types functions) {name : Ir.Name} (hname : name ∈ s.builder.module.introduced) :
    name ∈ t.builder.module.introduced := by
  simp only [Ir.Module.introduced, List.mem_append, List.mem_map, Array.mem_toList_iff, h.structs, h.definitions]
    at hname ⊢
  grind [h.globals, h.declarations]

end Emitter

namespace Emit

open Linkage

variable {L : Linkage} {c : Context} {s t : Emitter}

/-! ## Functions -/

theorem linked_reserveSlots {locals : List Local} {r : Unit} (hk : L.context.Knows locals)
    (h : reserveSlots locals s = .ok r t) (hs : s.Linked L) : t.Linked L := by
  induction locals generalizing s with
  | nil =>
    cases h
    exact hs
  | cons l rest ih =>
    obtain ⟨f, hf, hallowed⟩ := hs.function
    obtain rfl := Emitter.fn_eq hf
    obtain ⟨hl, hrest⟩ := Context.knows_cons.mp hk
    have htype : L.Allows (s.context.irType l.type) := hs.context ▸ allows_irType hl
    refine ih hrest (reserveSlots_cons h hf)
      { hs with slots := fun p hp => ?_, function := ⟨_, rfl, allows_addSlot hallowed htype _⟩ }
    rcases Array.mem_push.mp hp with hp | rfl
    · exact hs.slots p hp
    · exact ⟨allows_operand.mpr ⟨allows_ptr, allows_temp⟩, hl⟩

theorem linking_storeParams : (params : List (LocalId × Operand)) → (∀ param ∈ params, L.Allows param.2) →
    Linking L (storeParams params)
  | [], _ => linking_pure trivial
  | (id, value) :: rest, h => by
    obtain ⟨hvalue, hrest⟩ := List.forall_mem_cons.mp h
    unfold storeParams
    exact (linking_slot id).bind fun _ hslot =>
      (linking_store hvalue hslot.1).seq (linking_storeParams rest hrest)

/-- Nothing is referred to yet by the code of a function that was opened. -/
theorem linked_opened (hcontext : s.context = L.context) (hslots : s.slots = #[]) (hloops : s.loops = [])
    {f : Ir.OpenFunction} (hf : s.builder.function = some f) (hallowed : L.Allows f) : s.Linked L where
  context := hcontext
  slots p hp := absurd (hslots ▸ hp) (Array.not_mem_empty p)
  loops _ hp := absurd (hloops ▸ hp) List.not_mem_nil
  function := ⟨f, hf, hallowed⟩

/-- The local of a body at a number. -/
theorem knows_localType {body : Body} (hk : L.context.Knows body) (id : LocalId) :
    L.context.Knows (body.locals[id.index]?.getD default).type := by
  cases hfound : body.locals[id.index]? with
  | none => exact Context.knows_of_nil rfl
  | some l =>
    have hin : l ∈ body.locals.toList := Array.mem_toList_iff.mpr (Array.mem_of_getElem? hfound)
    exact Context.knows_list.mp (Context.knows_body.mp hk).1 l hin

/-- The function of a typed body refers to introduced names only. -/
theorem names_emitted {strings : Array String} {body : Body} {f : Ir.Function}
    (h : Emitted L.context strings body f) (ht : body.Typed L.context) (hk : L.context.Knows body)
    (hstrings : ∀ n < strings.size, L.introduces (.string n)) : ∀ name ∈ f.names, L.introduces name := by
  obtain ⟨s, reserved, built, hcontext, hbuilt, hbegins, rfl⟩ := h
  obtain ⟨hlocals, hblock, hreturns⟩ := Context.knows_body.mp hk
  have htype (id : LocalId) : L.Allows (s.context.irType (body.locals[id.index]?.getD default).type) :=
    hcontext ▸ allows_irType (knows_localType hk id)
  have hentering : (s.entering body).Linked L := by
    refine linked_opened hcontext rfl rfl rfl (allows_function.mpr ?_)
    refine ⟨⟨⟨⟨hcontext ▸ allows_irType hreturns, ?_⟩, ?_⟩, allows_nil⟩, List.forall_mem_nil _⟩
    · exact List.forall_mem_map.mpr fun id _ => htype id
    · exact List.forall_mem_nil _
  have hcode : Linking L (bodyCode s.context body) := by
    refine (linking_storeParams _ (List.forall_mem_map.mpr fun x _ => ?_)).seq
      (linking_emitBlock body.block ht.block hblock)
    exact allows_operand.mpr ⟨htype x.1, allows_param⟩
  obtain ⟨hlinked, -⟩ := hcode.links hbuilt.code (linked_reserveSlots hlocals hbuilt.reserve hentering)
    fun n hn => hstrings n (hn.trans_le hbegins.size_le)
  obtain ⟨f, hf, hallowed⟩ := hlinked.function
  obtain rfl := Emitter.fn_eq hf
  exact Ir.OpenFunction.forall_definition hallowed

/-- The function `main` refers to what it calls. -/
theorem names_main {returns : Ir.Ty} {symbol : String} (hreturns : L.Allows returns)
    (hsymbol : L.introduces (.symbol symbol)) (hcontext : s.context = L.context)
    (hstrings : ∀ n < (mainBuilt s returns (.symbol symbol)).builder.strings.size, L.introduces (.string n)) :
    ∀ name ∈ (mainBuilt s returns (.symbol symbol)).fn.definition.names, L.introduces name := by
  let opened : Emitter := { s with builder := mainOpened s.builder, slots := #[], loops := [] }
  let built : Emitter := { opened with builder := (mainBuilt s returns (.symbol symbol)).builder }
  have hopened : opened.Linked L := by
    refine linked_opened hcontext rfl rfl rfl (allows_function.mpr ?_)
    refine ⟨⟨⟨⟨allows_int, allows_nil⟩, ?_⟩, allows_nil⟩, List.forall_mem_nil _⟩
    exact List.forall_mem_nil _
  have hcode : Linking L (do
      let status ← build (Build.call returns (.symbol symbol) [] none)
      build (Build.ret (some (if status.type.isVoid then ⟨.int 32, .int 0⟩ else status)))) := by
    refine (linking_call hreturns (allows_symbol.mpr hsymbol) allows_nil allows_none).bind fun status hstatus => ?_
    refine linking_ret (allows_some.mpr ?_)
    split
    · exact allows_operand.mpr ⟨allows_int, allows_intRef⟩
    · exact hstatus
  have hrun : (do
      let status ← build (Build.call returns (.symbol symbol) [] none)
      build (Build.ret (some (if status.type.isVoid then ⟨.int 32, .int 0⟩ else status)))) opened =
      .ok ⟨⟩ built := rfl
  obtain ⟨hlinked, -⟩ := hcode.links hrun hopened hstrings
  obtain ⟨f, hf, hallowed⟩ := hlinked.function
  obtain rfl : f = (mainBuilt s returns (.symbol symbol)).fn :=
    Option.some.inj (hf.symm.trans (mainBuilt_isOpen s returns (.symbol symbol)))
  exact Ir.OpenFunction.forall_definition hallowed

/-! ## Outside of functions -/

theorem prepared_declare (hs : s.Prepared) {d : Ir.Declaration} (hd : ∀ name ∈ d.names, s.Outlines name)
    {r : Unit} (h : build (Build.declare d) s = .ok r t) : t.Prepared ∧ t.Declares d.name := by
  rw [build_apply] at h
  cases h
  unfold Build.declare
  rw [Build.modify_apply]
  dsimp only
  split
  · rename_i hfound
    exact ⟨hs, hs.functions d.name (by simpa using hfound)⟩
  · refine ⟨⟨⟨hs.globals, fun d' hd' => ?_⟩, fun name hname => ?_⟩, d, Array.mem_push_self, rfl⟩
    · rcases Array.mem_push.mp hd' with hd' | rfl
      · exact hs.declarations d' hd'
      · exact hd
    · rcases List.mem_cons.mp hname with rfl | hname
      · exact ⟨d, Array.mem_push_self, rfl⟩
      · obtain ⟨d', hd', heq⟩ := hs.functions name hname
        exact ⟨d', Array.mem_push_of_mem _ hd', heq⟩

/-- The constant that a variable begins with. -/
theorem prepared_constantOperand (hs : s.Prepared) {value : Const} {type : Ty} (htype : s.context.Knows type)
    {a : Operand} (h : constantOperand value type s = .ok a t) :
    t.Prepared ∧ ∀ name ∈ a.names, t.Outlines name := by
  have hgrows : s.Grows (fun _ => False) 0 t := Growing.grows h
  refine ⟨hs.collects hgrows.context hgrows.builder.strings hgrows.builder.collects, ?_⟩
  cases value with
  | int n =>
    cases h
    refine fun name hname => .inl (Context.names_irType htype name ?_)
    simpa [Operand.names, Ir.Ref.names] using hname
  | bool b =>
    cases h
    exact fun name hname => absurd hname List.not_mem_nil
  | str text =>
    obtain ⟨n, hn, hnumber⟩ := Build.string_number text s.builder
    rw [constantOperand, build_apply, hnumber] at h
    cases h
    exact fun name hname => .inr ⟨n, hn, by simpa [Operand.names, Ir.Ty.names, Ir.Ref.names] using hname⟩

theorem prepared_defineGlobal (hs : s.Prepared) {name : String} {constant : Bool} {value : Operand}
    (hvalue : ∀ name ∈ value.names, s.Outlines name) {r : Unit}
    (h : build (Build.defineGlobal name constant value) s = .ok r t) :
    t.Prepared ∧ .symbol name ∈ t.builder.module.introduced := by
  cases h
  refine ⟨⟨⟨fun g hg => ?_, hs.declarations⟩, hs.functions⟩, ?_⟩
  · rcases Array.mem_push.mp hg with hg | rfl
    · exact hs.globals g hg
    · exact hvalue
  · have hmem : Ir.Global.named name constant value ∈ s.builder.module.globals.push (.named name constant value) :=
      Array.mem_push_self
    simp only [Ir.Module.introduced, List.mem_append, List.mem_map, Array.mem_toList_iff]
    exact .inl (.inl (.inr ⟨_, hmem, rfl⟩))

/-- A variable is introduced. -/
theorem prepared_emitVariable (hs : s.Prepared) {g : Global} {type : Ty} (htype : s.context.Knows type) {r : Unit}
    (h : emitVariable g type s = .ok r t) : t.Prepared ∧ .symbol g.symbol ∈ t.builder.module.introduced := by
  unfold emitVariable at h
  cases hvalue : g.value with
  | some value =>
    rw [hvalue] at h
    obtain ⟨a, u, hconstant, hdefine⟩ := Run.bind_eq_ok.mp h
    obtain ⟨hu, ha⟩ := prepared_constantOperand hs htype hconstant
    exact prepared_defineGlobal hu ha hdefine
  | none =>
    rw [hvalue] at h
    obtain ⟨c, u, hcontext, hdefine⟩ := Run.bind_eq_ok.mp h
    cases hcontext
    refine prepared_defineGlobal hs (fun name hname => .inl (Context.names_irType htype name ?_)) hdefine
    unfold Context.zeroOf at hname
    rcases List.mem_append.mp hname with hname | hname
    · exact hname
    · dsimp only at hname
      split at hname <;> exact absurd hname List.not_mem_nil

/-- A function that is defined elsewhere is introduced. -/
theorem prepared_emitExternal (hs : s.Prepared) {g : Global} {type : Ty} (htype : s.context.Knows type) {r : Unit}
    (h : emitExternal g type s = .ok r t) : t.Prepared ∧
      ∀ params variadic returns, type.shape = .func params variadic returns →
        .symbol g.symbol ∈ t.builder.module.introduced := by
  unfold emitExternal at h
  cases hshape : type.shape with
  | func params variadic returns =>
    rw [hshape] at h
    obtain ⟨c, u, hcontext, hdeclare⟩ := Run.bind_eq_ok.mp h
    cases hcontext
    obtain ⟨hparams, hreturns⟩ : s.context.Knows params ∧ s.context.Knows returns :=
      Context.knows_func.mp (hshape ▸ Context.knows_shape.mpr htype)
    refine (prepared_declare hs (fun name hname => ?_) hdeclare).imp_right
      fun hdeclared _ _ _ _ => hdeclared.introduced
    rcases List.mem_append.mp hname with hname | hname
    · exact .inl (Context.names_irType hreturns name hname)
    · obtain ⟨_, hin, hname⟩ := List.mem_flatMap.mp hname
      obtain ⟨param, hparam, rfl⟩ := List.mem_map.mp hin
      exact .inl (Context.names_irType (Context.knows_list.mp hparams param hparam) name hname)
  | int | bool | void | owner | shared | array | struct =>
    rw [hshape] at h
    cases h
    exact ⟨hs, nofun⟩

/-- Whatever has no body is introduced once its type is known. -/
theorem prepared_emitGlobal (hs : s.Prepared) {g : Global} (hg : s.context.Knows g) {r : Unit}
    (h : emitGlobal g s = .ok r t) : t.Prepared ∧
      (g.Provided → g.hasBody ∨ .symbol g.symbol ∈ t.builder.module.introduced) := by
  unfold emitGlobal at h
  cases htype : g.type with
  | none =>
    rw [htype] at h
    cases h
    exact ⟨hs, fun ⟨type, hsome, _⟩ => by (rw [htype] at hsome; cases hsome)⟩
  | some type =>
    have hknown : s.context.Knows type := (Context.knows_globalDef.mp hg).2.2 |> fun hk => by rwa [htype] at hk
    cases hkind : g.kind with
    | storage decl =>
      rw [htype, hkind] at h
      obtain ⟨ht, hintroduced⟩ := prepared_emitVariable hs hknown h
      exact ⟨ht, fun _ => .inr hintroduced⟩
    | function decl owner =>
      have hfunction : g.fnDecl? = some decl := by rw [Global.fnDecl?, hkind]
      rw [htype, hkind] at h
      replace h : (if decl.body.isNone then emitExternal g type else return ()) s = .ok r t := h
      cases hbody : decl.body with
      | none =>
        rw [hbody] at h
        obtain ⟨ht, hintroduced⟩ := prepared_emitExternal hs hknown h
        refine ⟨ht, fun ⟨type', htype', hshape⟩ => .inr ?_⟩
        obtain rfl : type = type' := Option.some.inj (htype.symm.trans htype')
        obtain ⟨params, variadic, returns, hfunc⟩ := hshape (by rw [Global.isFunction, hfunction]; rfl)
        exact hintroduced params variadic returns hfunc
      | some block =>
        rw [hbody] at h
        cases h
        exact ⟨hs, fun _ => .inl (by rw [Global.hasBody, hfunction]; simp [hbody])⟩

/-! ## Parts of a module -/

/-- The functions of the runtime. -/
theorem prepared_declareRuntime {r : Unit} (h : build declareRuntime { context := c } = .ok r t) :
    t.Prepared ∧ t.Declares "malloc" ∧ t.Declares "free" ∧ t.Declares "printf" := by
  have hstart : Emitter.Prepared { context := c } :=
    ⟨⟨fun g hg => absurd hg (Array.not_mem_empty g), fun d hd => absurd hd (Array.not_mem_empty d)⟩,
      fun name hname => absurd hname List.not_mem_nil⟩
  have hrun : (do
      build (Build.declare { name := "malloc", returns := .ptr, params := [.int 64], variadic := false })
      build (Build.declare { name := "free", returns := .void, params := [.ptr], variadic := false })
      build (Build.declare { name := "printf", returns := .int 32, params := [.ptr], variadic := true }))
        { context := c } = .ok r t := h
  obtain ⟨_, s₁, hmalloc, hrun⟩ := Run.bind_eq_ok.mp hrun
  obtain ⟨_, s₂, hfree, hprintf⟩ := Run.bind_eq_ok.mp hrun
  obtain ⟨h₁, d₁⟩ := prepared_declare hstart (fun _ hname => absurd hname List.not_mem_nil) hmalloc
  obtain ⟨h₂, d₂⟩ := prepared_declare h₁ (fun _ hname => absurd hname List.not_mem_nil) hfree
  obtain ⟨h₃, d₃⟩ := prepared_declare h₂ (fun _ hname => absurd hname List.not_mem_nil) hprintf
  have hfree' := Quiet.defines hfree
  have hprintf' := Quiet.defines hprintf
  exact ⟨h₃, (d₁.mono hfree').mono hprintf', d₂.mono hprintf', d₃⟩

theorem prepared_emitStructs {structs : List StructDef} {r : PUnit} (hs : s.Prepared)
    (h : (forIn structs PUnit.unit fun d _ => do
      emitStruct d
      pure (ForInStep.yield PUnit.unit)) s = .ok r t) : t.Prepared := by
  refine (Run.forIn_rounds (P := Emitter.Prepared) (R := fun _ _ => True) (fun _ => trivial) (fun _ _ => trivial)
    (fun d _ s _ t hstruct hs => ?_) h hs).1
  obtain rfl := emitStruct_eq_ok hstruct
  exact ⟨⟨⟨hs.globals, hs.declarations⟩, hs.functions⟩, trivial⟩

theorem prepared_emitGlobals {globals : List Global} (hknown : ∀ g ∈ globals, s.context.Knows g) {r : PUnit}
    (hs : s.Prepared) (h : (forIn globals PUnit.unit fun g _ => do
      emitGlobal g
      pure (ForInStep.yield PUnit.unit)) s = .ok r t) :
    t.Prepared ∧ ∀ g ∈ globals, g.Provided → g.hasBody ∨ .symbol g.symbol ∈ t.builder.module.introduced := by
  have hround {g : Global} (hg : s.context.Knows g) {u v : Emitter} {r : PUnit}
      (hu : u.Prepared ∧ u.context = s.context) (hglobal : emitGlobal g u = .ok r v) :
      (v.Prepared ∧ v.context = s.context) ∧ u.Defines v [] [] ∧
        (g.Provided → g.hasBody ∨ .symbol g.symbol ∈ v.builder.module.introduced) := by
    obtain ⟨hv, hsupplied⟩ := prepared_emitGlobal hu.1 (hu.2 ▸ hg) hglobal
    have hdefines : u.Defines v [] [] := Quiet.defines hglobal
    exact ⟨⟨hv, hdefines.context.trans hu.2⟩, hdefines, hsupplied⟩
  obtain ⟨ht, -, hall⟩ := Run.forIn_rounds (P := fun u => u.Prepared ∧ u.context = s.context)
    (R := fun u v => u.Defines v [] []) defines_refl .trans (fun g hg u _ v hglobal hu =>
      (hround (hknown g hg) hu hglobal).imp_right And.left) h ⟨hs, rfl⟩
  refine ⟨ht.1, fun g hg hprovided => ?_⟩
  obtain ⟨u, _, v, hu, -, hglobal, hvt⟩ := hall g hg
  exact ((hround (hknown g hg) hu hglobal).2.2 hprovided).imp_right hvt.introduced

/-- What functions add outside of themselves are string constants. -/
theorem outlined_emitBodies {bodies : List Body} (hnested : ∀ body ∈ bodies, body.block.Nested [])
    {r : PUnit} (hs : s.Outlined) (h : (forIn bodies PUnit.unit fun body _ => do
      emitBody body
      pure (ForInStep.yield PUnit.unit)) s = .ok r t) : t.Outlined := by
  refine (Run.forIn_rounds (P := Emitter.Outlined) (R := fun _ _ => True) (fun _ => trivial) (fun _ _ => trivial)
    (fun body hbody s _ t hbody' hs => ?_) h hs).1
  obtain ⟨reserved, built, hbuilt, -, rfl⟩ := defines_emitBody (hnested body hbody) hbody'
  have hentering : (s.entering body).Outlined := ⟨hs.globals, hs.declarations⟩
  have hall : built.Outlined := hentering.collects (hbuilt.grows.context.trans hbuilt.context)
    hbuilt.whole.strings hbuilt.whole.collects
  exact ⟨⟨hall.globals, hall.declarations⟩, trivial⟩

theorem outlined_main (hs : s.Outlined) (returns : Ir.Ty) (callee : Ir.Ref) :
    (mainBuilt s returns callee).ended.Outlined := by
  have hopened : Emitter.Outlined { s with builder := mainOpened s.builder } := ⟨hs.globals, hs.declarations⟩
  have hgrows := grows_mainCode returns callee (mainOpened s.builder)
  have hall : (mainBuilt s returns callee).Outlined := hopened.collects rfl hgrows.strings hgrows.collects
  exact ⟨hall.globals, hall.declarations⟩

/-- What is there beside the definitions of a module. -/
structure Supplied (c : Context) (t : Emitter) : Prop extends t.Outlined where
  context : t.context = c
  runtime : t.Declares "malloc" ∧ t.Declares "free" ∧ t.Declares "printf"
  provided : ∀ g ∈ c.globals, g.Provided → g.hasBody ∨ .symbol g.symbol ∈ t.builder.module.introduced

theorem supplied_emitProgram (hknown : ∀ g ∈ c.globals, c.Knows g)
    (hnested : ∀ body ∈ c.bodies, body.block.Nested []) {r : Unit}
    (h : emitProgram { context := c } = .ok r t) : Supplied c t := by
  obtain ⟨s₁, s₂, s₃, s₄, hruntime, hstructs, hglobals, hbodies, hentry⟩ := emitProgram_eq_ok h
  have hnestedList (body : Body) (hbody : body ∈ c.bodies.toList) : body.block.Nested [] :=
    hnested body (Array.mem_toList_iff.mp hbody)
  have hruntime' : Emitter.Defines { context := c } s₁ [] [] := Quiet.defines hruntime
  have hstructs' := defines_emitStructs hstructs
  have hglobals' : s₂.Defines s₃ [] [] := Quiet.defines hglobals
  obtain ⟨functions, hbodies', -⟩ := defines_emitBodies hnestedList hbodies
  obtain ⟨last, hentry', hlast⟩ : ∃ last, s₄.Defines t [] last ∧ (s₄.Outlined → t.Outlined) := by
    rcases hentry with ⟨-, rfl⟩ | ⟨entry, -, hentry⟩
    · exact ⟨[], defines_refl _, id⟩
    · obtain rfl := emitEntry_eq_ok hentry
      exact ⟨_, defines_main _ _ _, fun hs => outlined_main hs _ _⟩
  have hready : s₂.context = c := (hstructs'.context).trans hruntime'.context
  obtain ⟨h₁, hmalloc, hfree, hprintf⟩ := prepared_declareRuntime hruntime
  obtain ⟨h₃, hsupplied⟩ := prepared_emitGlobals (fun g hg => hready ▸ hknown g (Array.mem_toList_iff.mp hg))
    (prepared_emitStructs h₁ hstructs) hglobals
  have hbehind := hbodies'.trans hentry'
  have hmono {name : String} (hdeclared : s₁.Declares name) : t.Declares name :=
    ((hdeclared.mono hstructs').mono hglobals').mono hbehind
  exact {
    toOutlined := hlast (outlined_emitBodies hnestedList h₃.toOutlined hbodies)
    context := hbehind.context.trans (hglobals'.context.trans hready)
    runtime := ⟨hmono hmalloc, hmono hfree, hmono hprintf⟩
    provided := fun g hg hprovided =>
      (hsupplied g (Array.mem_toList_iff.mpr hg) hprovided).imp_right hbehind.introduced }

/-! ## Modules -/

variable {functions last : List Ir.Function}

theorem introduced_struct (hc : c.Resolved) (hprogram : EmittedProgram c t functions last) {id : StructId}
    (hid : id.index < c.structs.size) : .struct (c.struct id).symbol ∈ t.builder.module.introduced := by
  have htype : (⟨(c.struct id).symbol, (c.struct id).fields.map (c.irType ·.type)⟩ : Ir.StructType) ∈
      t.builder.module.structs.toList := by
    rw [hprogram.structs]
    refine List.mem_flatMap.mpr ⟨c.struct id, Array.mem_toList_iff.mpr (Check.getD_mem hid), ?_⟩
    rw [structTypes, if_pos (hc.structs id hid)]
    exact List.mem_singleton_self _
  simp only [Ir.Module.introduced, List.mem_append]
  exact .inl (.inl (.inl (List.mem_map_of_mem htype)))

/-- The functions of bodies have the symbols of these. -/
theorem names_bodies (hprogram : EmittedProgram c t functions last) :
    functions.map (·.name) = c.bodies.toList.map fun body => (c.global body.function).symbol := by
  have hall : List.Forall₂ (fun body f => (c.global body.function).symbol = f.name) c.bodies.toList functions :=
    hprogram.bodies.imp fun body f ⟨s, reserved, built, hcontext, hbuilt, _, hf⟩ => by
      rw [← hcontext, hf]
      exact hbuilt.head.symm
  rw [← List.forall₂_eq_eq_eq, List.forall₂_map_left_iff, List.forall₂_map_right_iff]
  exact hall.flip.imp fun _ _ => Eq.symm

theorem introduced_body (hprogram : EmittedProgram c t functions last) {body : Body} (hbody : body ∈ c.bodies) :
    .symbol (c.global body.function).symbol ∈ t.builder.module.introduced := by
  have hname : (c.global body.function).symbol ∈ t.builder.module.definitions.toList.map (·.name) := by
    rw [hprogram.definitions, List.map_append, names_bodies hprogram]
    exact List.mem_append_left _ (List.mem_map_of_mem (Array.mem_toList_iff.mpr hbody))
  obtain ⟨f, hf, hname⟩ := List.mem_map.mp hname
  rw [← hname]
  simp only [Ir.Module.introduced, List.mem_append]
  exact .inr (List.mem_map_of_mem hf)

theorem introduced_global (hc : c.Finished) (hprogram : EmittedProgram c t functions last) (hs : Supplied c t)
    {id : GlobalId} (h : c.Supplies id) : .symbol (c.global id).symbol ∈ t.builder.module.introduced := by
  have hdefined (hbody : (c.global id).hasBody) : .symbol (c.global id).symbol ∈ t.builder.module.introduced := by
    obtain ⟨body, hin, rfl⟩ := hc.exists_body hbody
    exact introduced_body hprogram hin
  rcases h with hbody | hprovided
  · exact hdefined hbody
  · have hid : c.global id ∈ c.globals := by
      refine Check.getD_mem (Nat.lt_of_not_le fun hle => ?_)
      obtain ⟨type, htype, -⟩ := hprovided
      rw [Check.global_of_size_le hle] at htype
      cases htype
    exact (hs.provided _ hid hprovided).elim hdefined fun hintroduced => hintroduced

theorem introduced_string {b : Ir.Builder} (h : b.Listed) {n : ℕ} (hn : n < b.strings.size) :
    .string n ∈ b.module.introduced := by
  have htext := h n
  rw [Array.getElem?_eq_getElem hn] at htext
  obtain ⟨g, hg, htext⟩ := List.exists_of_findSome?_eq_some htext
  have hname : g.name = .string n := by
    cases g with
    | named => cases htext
    | string k text =>
      obtain ⟨rfl, -⟩ := Option.ite_none_right_eq_some.mp htext
      rfl
  rw [← hname]
  simp only [Ir.Module.introduced, List.mem_append]
  exact .inl (.inl (.inr (List.mem_map_of_mem hg)))

/-- A finished program with what its module introduces. -/
def linkageOf (hc : c.Finished) (hprogram : EmittedProgram c t functions last) (hs : Supplied c t) : Linkage where
  context := c
  introduces name := name ∈ t.builder.module.introduced
  closed := hc.coherent.closed
  signatures := hc.wellTyped.globals
  structs _ hid := introduced_struct hc.toResolved hprogram hid
  globals _ hid := introduced_global hc hprogram hs hid
  malloc := hs.runtime.1.introduced
  free := hs.runtime.2.1.introduced
  printf := hs.runtime.2.2.introduced

theorem allows_entryType (entry : GlobalId) : L.Allows (entryType L.context entry) := by
  unfold entryType
  cases htype : L.context.functionType? entry with
  | none => exact allows_void
  | some type =>
    obtain ⟨params, variadic, returns⟩ := type
    obtain ⟨name, hfunc⟩ := Context.functionType?_eq_some htype
    have hknown := (Context.knows_globalDef.mp (L.closed.globals entry)).2.2
    rw [hfunc] at hknown
    exact allows_irType (Context.knows_func.mp (Context.knows_ty.mp (Context.knows_some.mp hknown))).2

/-- The module of a program that is accepted introduces what it refers to. -/
theorem closed_emitModule (hc : c.Finished) (hnested : ∀ body ∈ c.bodies, body.block.Nested []) {m : Ir.Module}
    (h : emitModule c = .ok m) : m.Closed := by
  obtain ⟨t, hrun, rfl⟩ := emitModule_eq_ok h
  obtain ⟨functions, last, hprogram⟩ := emitted_emitProgram hnested hrun
  have hs : Supplied c t := supplied_emitProgram
    (fun g hg => by
      obtain ⟨i, -, rfl⟩ := Check.exists_index hg
      exact hc.coherent.closed.globals ⟨i⟩) hnested hrun
  let L := linkageOf hc hprogram hs
  have hstrings (n : ℕ) (hn : n < t.builder.strings.size) : L.introduces (.string n) :=
    introduced_string hprogram.listed hn
  have houtlines {name : Ir.Name} (hname : t.Outlines name) : L.introduces name := by
    rcases hname with ⟨id, hid, rfl⟩ | ⟨n, hn, rfl⟩
    · rw [hs.context] at hid ⊢
      exact L.structs id hid
    · exact hstrings n hn
  show ∀ name ∈ t.builder.module.names, L.introduces name
  simp only [Ir.Module.names, List.forall_mem_append, List.forall_mem_flatMap, Array.mem_toList_iff]
  refine ⟨⟨⟨?structs, ?globals⟩, ?declarations⟩, ?definitions⟩
  case structs =>
    intro d hd
    rw [← Array.mem_toList_iff, hprogram.structs] at hd
    obtain ⟨s, hs, hd⟩ := List.mem_flatMap.mp hd
    obtain ⟨i, -, rfl⟩ := Check.exists_index (Array.mem_toList_iff.mp hs)
    unfold structTypes at hd
    split at hd
    · obtain rfl := List.mem_singleton.mp hd
      have hfields : c.Knows (c.struct ⟨i⟩).fields := (Context.knows_structDef.mp (hc.coherent.closed.structs ⟨i⟩)).2
      refine List.forall_mem_flatMap.mpr (List.forall_mem_map.mpr fun field hfield => ?_)
      exact allows_irType (L := L) (Context.knows_fieldDef.mp (Context.knows_list.mp hfields field hfield)).1
    · cases hd
  case globals => exact fun g hg name hname => houtlines (hs.globals g hg name hname)
  case declarations => exact fun d hd name hname => houtlines (hs.declarations d hd name hname)
  case definitions =>
    intro f hf
    rw [← Array.mem_toList_iff, hprogram.definitions] at hf
    rcases List.mem_append.mp hf with hf | hf
    · obtain ⟨i, hi, rfl⟩ := List.getElem_of_mem hf
      have hbody : i < c.bodies.toList.length := hprogram.bodies.length_eq ▸ hi
      have hin : c.bodies.toList[i] ∈ c.bodies := Array.getElem_mem_toList hbody |> Array.mem_toList_iff.mp
      exact names_emitted (L := L) (hprogram.bodies.get hbody hi) (hc.wellTyped.bodies _ hin) (hc.bodies _ hin)
        hstrings
    · rcases hprogram.entry with ⟨-, rfl⟩ | ⟨entry, s, hentry, hcontext, hbegins, rfl⟩
      · cases hf
      · obtain rfl := List.mem_singleton.mp hf
        exact names_main (L := L) (allows_entryType (L := L) entry) (L.globals entry (.inl (hc.entry entry hentry)))
          hcontext fun n hn => hstrings n (hn.trans_le hbegins.size_le)

end Emit

end OwnLang
