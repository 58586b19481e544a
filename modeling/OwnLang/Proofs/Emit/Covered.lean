import Mathlib
import OwnLang.Proofs.Check.Roll
import OwnLang.Proofs.Emit.Closed
import OwnLang.Proofs.Emit.WellFormed
import OwnLang.Proofs.Grammar.Words
import OwnLang.Proofs.Ir.Strings

/-!
# Nothing declared is lost

An accepted program holds what its files declare, all of it complete, and the body of each function was checked once,
also if only another body asked for the function (`Context.Complete`). The module of the program defines each of these
functions and each struct once, under symbols of their own, and introduces whatever it refers to (`Ir.Module.Covers`).
So it is for all programs (`checkModules_complete`).

No name is introduced twice, but for `main`: a program may have a function `main` that is defined elsewhere and
another function for its entry point, and then the module declares and defines `main` (`compile_introduces`). All
other functions that are defined elsewhere have names which no function or variable of the program has for its
symbol, and each name is declared once.
-/

namespace OwnLang

/-- What files declare is there and is complete, no function waits, and each one that has a body was checked once. -/
structure Context.Complete (c : Context) (files : List Surface.Module) : Prop where
  /-- What files declare stands in order; instances of templates are behind it. -/
  declared : (Roll.ofFiles files).Begins c.roll
  /-- Structs have the functions that they declare, and so do instances. -/
  staffed : c.roll.Staffed
  structs : ∀ d ∈ c.structs, d.state = .complete
  aliases : ∀ a ∈ c.aliases, a.state = .complete
  macros : ∀ d ∈ c.macros, d.state = .complete
  pending : c.pending = []
  bodies : ∀ id : GlobalId, (c.global id).hasBody → c.bodies.toList.countP (·.function = id) = 1

/-- A module holds each function and struct of a program once, and introduces whatever it refers to. -/
structure Ir.Module.Covers (m : Ir.Module) (c : Context) : Prop where
  functions : ∀ id : GlobalId, (c.global id).hasBody →
    m.definitions.toList.countP (·.name = (c.global id).symbol) = 1
  /-- No function is defined under the symbol of another one. -/
  functionSymbols : ∀ id id' : GlobalId, (c.global id).hasBody → (c.global id').hasBody →
    (c.global id).symbol = (c.global id').symbol → id = id'
  structs : ∀ id : StructId, id.index < c.structs.size →
    m.structs.toList.countP (·.symbol = (c.struct id).symbol) = 1
  /-- No type is defined under the symbol of another one. -/
  structSymbols : ∀ id id' : StructId, id.index < c.structs.size → id'.index < c.structs.size →
    (c.struct id).symbol = (c.struct id').symbol → id = id'
  closed : m.Closed

variable {c : Context}

namespace Context

theorem Finished.complete_of_mem (h : c.Finished) {d : StructDef} (hd : d ∈ c.structs) : d.state = .complete := by
  obtain ⟨i, hi, rfl⟩ := Check.exists_index hd
  exact h.structs ⟨i⟩ hi

theorem Finished.complete (h : c.Finished) {files : List Surface.Module} (hroll : Check.Enrolled (.ofFiles files) c) :
    c.Complete files where
  declared := hroll.begins
  staffed := hroll.staffed
  structs _ := h.complete_of_mem
  aliases a ha := by
    obtain ⟨i, hi, rfl⟩ := Check.exists_index ha
    exact (h.aliases ⟨i⟩ hi).complete
  macros d hd := by
    obtain ⟨i, hi, rfl⟩ := Check.exists_index hd
    exact h.macros ⟨i⟩ hi
  pending := h.pending
  bodies _ hbody := h.countP_body hbody

/-- Different functions and variables of a finished program have different symbols. -/
theorem Finished.symbol_inj (h : c.Finished) {id id' : GlobalId} (hid : c.Pathed id) (hid' : c.Pathed id')
    (hsymbol : (c.global id).symbol = (c.global id').symbol) : id = id' :=
  h.coherent.labelled.symbol_inj h.coherent.apart h.toResolved.structs hid hid' hsymbol

end Context

namespace Emit

variable {t : Emitter} {functions last : List Ir.Function}

theorem name_main (s : Emitter) (returns : Ir.Ty) (callee : Ir.Ref) : (mainBuilt s returns callee).fn.name = "main" := by
  obtain ⟨f, hf, hadds⟩ := (grows_mainCode returns callee (mainOpened s.builder)).function _ rfl
  obtain rfl : f = (mainBuilt s returns callee).fn :=
    Option.some.inj (hf.symm.trans (mainBuilt_isOpen s returns callee))
  exact hadds.head.1

/-- What calls the entry point is no function of the program. -/
theorem countP_entry (hc : c.Finished) {strings : Array String} (h : EmittedEntry c strings last) {id : GlobalId}
    (hbody : (c.global id).hasBody) : last.countP (·.name = (c.global id).symbol) = 0 := by
  rcases h with ⟨-, rfl⟩ | ⟨entry, s, -, -, -, rfl⟩
  · rfl
  · refine List.countP_eq_zero.mpr fun f hf => ?_
    obtain rfl := List.mem_singleton.mp hf
    have hmain := hc.coherent.labelled.symbol_ne_word (Context.pathed_of_hasBody hbody) isWord_main
    simpa [Ir.OpenFunction.definition, name_main] using hmain.symm

/-- A function that has a body is defined once. -/
theorem countP_definitions (hc : c.Finished) (hprogram : EmittedProgram c t functions last) {id : GlobalId}
    (hbody : (c.global id).hasBody) :
    t.builder.module.definitions.toList.countP (·.name = (c.global id).symbol) = 1 := by
  have hfunctions : functions.countP (·.name = (c.global id).symbol) =
      c.bodies.toList.countP (·.function = id) := by
    calc functions.countP (·.name = (c.global id).symbol)
      _ = (functions.map (·.name)).countP (· = (c.global id).symbol) := by
        rw [List.countP_map]
        rfl
      _ = c.bodies.toList.countP fun body => (c.global body.function).symbol = (c.global id).symbol := by
        rw [names_bodies hprogram, List.countP_map]
        rfl
      _ = c.bodies.toList.countP (·.function = id) := by
        refine List.countP_congr fun body hin => ?_
        have hin' := hc.hasBody (Array.mem_toList_iff.mp hin)
        simp only [decide_eq_true_eq]
        exact ⟨hc.symbol_inj (Context.pathed_of_hasBody hin') (Context.pathed_of_hasBody hbody), fun h => by rw [h]⟩
  rw [hprogram.definitions, List.countP_append, countP_entry hc hprogram.entry hbody, hfunctions,
    hc.countP_body hbody]

/-- The types of structs have different symbols, those of the structs. -/
theorem symbols_structs (hc : c.Finished) (hprogram : EmittedProgram c t functions last) :
    t.builder.module.structs.toList.map (·.symbol) = c.structs.toList.map (·.symbol) ∧
      (t.builder.module.structs.toList.map (·.symbol)).Nodup := by
  have hsymbols : t.builder.module.structs.toList.map (·.symbol) = c.structs.toList.map (·.symbol) := by
    rw [hprogram.structs, List.map_flatMap, List.map_eq_flatMap]
    refine List.flatMap_congr fun d hd => ?_
    rw [structTypes, if_pos (hc.complete_of_mem (Array.mem_toList_iff.mp hd))]
    rfl
  refine ⟨hsymbols, hsymbols ▸ List.nodup_iff_injective_getElem.mpr fun i j hsame => Fin.ext ?_⟩
  have hlt (k : Fin (c.structs.toList.map (·.symbol)).length) : k.val < c.structs.size :=
    k.isLt.trans_eq (by simp)
  refine congrArg StructId.index (hc.coherent.apart.structs ⟨i⟩ ⟨j⟩ (hlt i) (hlt j) ?_)
  simpa [Context.struct, hlt] using hsame

/-- The type of a struct is defined once. -/
theorem countP_structs (hc : c.Finished) (hprogram : EmittedProgram c t functions last) {id : StructId}
    (hid : id.index < c.structs.size) :
    t.builder.module.structs.toList.countP (·.symbol = (c.struct id).symbol) = 1 := by
  obtain ⟨hsymbols, hnodup⟩ := symbols_structs hc hprogram
  have hmem : (c.struct id).symbol ∈ t.builder.module.structs.toList.map (·.symbol) :=
    hsymbols ▸ List.mem_map_of_mem (Array.mem_toList_iff.mpr (Check.getD_mem hid))
  calc t.builder.module.structs.toList.countP (·.symbol = (c.struct id).symbol)
    _ = (t.builder.module.structs.toList.map (·.symbol)).count (c.struct id).symbol := by
      rw [List.count, List.countP_map]
      exact List.countP_congr fun d _ => by simp
    _ = 1 := List.count_eq_one_of_mem hnodup hmem

/-- The module of a finished program holds all of it. -/
theorem covers_emitModule (hc : c.Finished) (hnested : ∀ body ∈ c.bodies, body.block.Nested []) {m : Ir.Module}
    (h : emitModule c = .ok m) : m.Covers c := by
  have hclosed := closed_emitModule hc hnested h
  obtain ⟨t, hrun, rfl⟩ := emitModule_eq_ok h
  obtain ⟨functions, last, hprogram⟩ := emitted_emitProgram hnested hrun
  exact {
    functions := fun _ hbody => countP_definitions hc hprogram hbody
    functionSymbols := fun _ _ hbody hbody' =>
      hc.symbol_inj (Context.pathed_of_hasBody hbody) (Context.pathed_of_hasBody hbody')
    structs := fun _ hid => countP_structs hc hprogram hid
    structSymbols := hc.coherent.apart.structs
    closed := hclosed }

end Emit

/-- The box and its method are made while the body of `main` is checked. -/
def boxSources : List SourceFile :=
  [⟨"main.own", String.join
    [ "template <T> struct Box \x7b var x: T; fn get(): T \x7b return this.x; \x7d \x7d ",
      "fn main(): i32 \x7b var b = Box<i32>\x7bx: 1\x7d; return b.get(); \x7d" ]⟩]

/-- The symbol of a variable. -/
def Ir.Global.symbol? : Ir.Global → Option String
  | .named name _ _ => some name
  | .string _ _ => none

/-- The symbol of a variable that is emitted. -/
def Global.storage? (g : Global) : Option String :=
  match g.type, g.kind with
  | some _, .storage _ => some g.symbol
  | some _, .function _ _ => none
  | none, _ => none

/-- The name of a function that is defined elsewhere. Functions of structs have symbols of the program all the same. -/
def Context.Elsewhere (c : Context) (name : String) : Prop :=
  IsWord name ∨ ∃ id, c.Pathed id ∧ (c.global id).isExternal ∧ name = (c.global id).symbol

/-- What a state introduces beside functions that are defined: some variables, string constants, which are numbered in
order, and functions that are defined elsewhere, each of them once. -/
structure Emitter.Introduces (c : Context) (s : Emitter) (storages : List String) : Prop where
  context : s.context = c
  storages : s.builder.module.globals.toList.filterMap Ir.Global.symbol? = storages
  constants : s.builder.module.constants = s.builder.strings.toList.zipIdx
  declared : (s.builder.module.declarations.toList.map (·.name)).Nodup
  known : ∀ d ∈ s.builder.module.declarations, d.name ∈ s.builder.functions
  elsewhere : ∀ d ∈ s.builder.module.declarations, c.Elsewhere d.name

namespace Context

theorem Finished.symbol_ne_word (h : c.Finished) {id : GlobalId} (hid : c.Pathed id) {name : String}
    (hname : IsWord name) : (c.global id).symbol ≠ name :=
  h.coherent.labelled.symbol_ne_word hid hname

theorem Finished.elsewhere (h : c.Finished) {id : GlobalId} (hid : id.index < c.globals.size)
    (hexternal : (c.global id).isExternal) : c.Elsewhere (c.global id).symbol := by
  cases howner : (c.global id).owner? with
  | none => exact .inl (h.coherent.labelled.externals id howner hexternal)
  | some owner => exact .inr ⟨id, ⟨hid, fun hnone => by rw [howner] at hnone; cases hnone⟩, hexternal, rfl⟩

/-- What the program provides has another symbol than what is defined elsewhere. -/
theorem Finished.symbol_ne_elsewhere (h : c.Finished) {id : GlobalId} (hid : c.Pathed id)
    (hprovided : ¬(c.global id).isExternal) {name : String} (hname : c.Elsewhere name) :
    (c.global id).symbol ≠ name := by
  rcases hname with hword | ⟨id', hid', hexternal, rfl⟩
  · exact h.symbol_ne_word hid hword
  · intro hsame
    obtain rfl := h.symbol_inj hid hid' hsame
    exact hprovided hexternal

end Context

namespace Emit

open Ir (Build Operand)

variable {s t : Emitter} {storages : List String}

/-- More string constants are numbered behind those that there are. -/
theorem introduces_of_collects (h : s.Introduces c storages) (hcontext : t.context = s.context)
    (hcollects : s.builder.Collects t.builder) : t.Introduces c storages := by
  obtain ⟨texts, hstrings, hglobals⟩ := hcollects.globals
  have hnone (xs : List (String × Nat)) :
      (xs.map fun x => Ir.Global.string x.2 x.1).filterMap Ir.Global.symbol? = [] := by
    rw [List.filterMap_map]
    exact List.filterMap_eq_nil_iff.mpr fun _ _ => rfl
  have hsome (xs : List (String × Nat)) :
      (xs.map fun x => Ir.Global.string x.2 x.1).filterMap Ir.Global.constant? = xs := by
    rw [List.filterMap_map]
    exact List.filterMap_some
  exact {
    context := hcontext.trans h.context
    storages := by rw [hglobals, List.filterMap_append, hnone, List.append_nil, h.storages]
    constants := by
      have hconstants := h.constants
      unfold Ir.Module.constants at hconstants ⊢
      rw [hglobals, List.filterMap_append, hconstants, hsome, hstrings, List.zipIdx_append]
      simp
    declared := hcollects.declarations ▸ h.declared
    known := hcollects.declarations ▸ hcollects.functions ▸ h.known
    elsewhere := hcollects.declarations ▸ h.elsewhere }

theorem introduces_declare (hs : s.Introduces c storages) {d : Ir.Declaration} (hd : c.Elsewhere d.name) {r : Unit}
    (h : build (Build.declare d) s = .ok r t) : t.Introduces c storages := by
  rw [build_apply] at h
  cases h
  unfold Build.declare
  rw [Build.modify_apply]
  dsimp only
  split
  · exact hs
  · rename_i hfresh
    have hfresh : d.name ∉ s.builder.functions := by simpa using hfresh
    refine { hs with declared := ?_, known := fun d' hd' => ?_, elsewhere := fun d' hd' => ?_ }
    · rw [Array.toList_push, List.map_append, List.map_singleton]
      refine List.nodup_append.mpr ⟨hs.declared, List.nodup_singleton _, ?_⟩
      rintro name hname _ (_ | ⟨_, ⟨⟩⟩) rfl
      obtain ⟨d', hd', hsame⟩ := List.mem_map.mp hname
      exact hfresh (hsame ▸ hs.known d' (Array.mem_toList_iff.mp hd'))
    · rcases Array.mem_push.mp hd' with hd' | rfl
      · exact List.mem_cons_of_mem _ (hs.known d' hd')
      · exact List.mem_cons_self
    · rcases Array.mem_push.mp hd' with hd' | rfl
      · exact hs.elsewhere d' hd'
      · exact hd

theorem introduces_defineGlobal (hs : s.Introduces c storages) {name : String} {constant : Bool} {value : Operand}
    {r : Unit} (h : build (Build.defineGlobal name constant value) s = .ok r t) :
    t.Introduces c (storages ++ [name]) := by
  cases h
  refine { hs with storages := ?_, constants := ?_ }
  · show (s.builder.module.globals.push _).toList.filterMap Ir.Global.symbol? = _
    rw [Array.toList_push, List.filterMap_append, hs.storages]
    rfl
  · show (s.builder.module.globals.push _).toList.filterMap Ir.Global.constant? = _
    rw [Array.toList_push, List.filterMap_append]
    exact (List.append_nil _).trans hs.constants

theorem introduces_emitVariable (hs : s.Introduces c storages) {g : Global} {type : Ty} {r : Unit}
    (h : emitVariable g type s = .ok r t) : t.Introduces c (storages ++ [g.symbol]) := by
  unfold emitVariable at h
  cases hvalue : g.value with
  | some value =>
    rw [hvalue] at h
    obtain ⟨a, u, hconstant, hdefine⟩ := Run.bind_eq_ok.mp h
    have hgrows : s.Grows (fun _ => False) 0 u := Growing.grows hconstant
    exact introduces_defineGlobal (introduces_of_collects hs hgrows.context hgrows.builder.collects) hdefine
  | none =>
    rw [hvalue] at h
    obtain ⟨c, u, hcontext, hdefine⟩ := Run.bind_eq_ok.mp h
    cases hcontext
    exact introduces_defineGlobal hs hdefine

theorem introduces_emitExternal (hs : s.Introduces c storages) {g : Global} (hg : c.Elsewhere g.symbol) {type : Ty}
    {r : Unit} (h : emitExternal g type s = .ok r t) : t.Introduces c storages := by
  unfold emitExternal at h
  cases hshape : type.shape with
  | func params variadic returns =>
    rw [hshape] at h
    obtain ⟨_, _, hcontext, hdeclare⟩ := Run.bind_eq_ok.mp h
    cases hcontext
    exact introduces_declare hs hg hdeclare
  | int | bool | void | owner | shared | array | struct =>
    rw [hshape] at h
    cases h
    exact hs

theorem introduces_emitGlobal (hs : s.Introduces c storages) {g : Global}
    (hg : g.isExternal → c.Elsewhere g.symbol) {r : Unit} (h : emitGlobal g s = .ok r t) :
    t.Introduces c (storages ++ g.storage?.toList) := by
  unfold emitGlobal at h
  unfold Global.storage?
  cases htype : g.type with
  | none =>
    rw [htype] at h
    cases h
    exact (List.append_nil storages).symm ▸ hs
  | some type =>
    cases hkind : g.kind with
    | storage decl =>
      rw [htype, hkind] at h
      exact introduces_emitVariable hs h
    | function decl owner =>
      rw [htype, hkind] at h
      replace h : (if decl.body.isNone then emitExternal g type else return ()) s = .ok r t := h
      refine (List.append_nil storages).symm ▸ ?_
      split at h
      · rename_i hnone
        exact introduces_emitExternal hs (hg (by simpa [Global.isExternal, Global.fnDecl?, hkind] using hnone)) h
      · cases h
        exact hs

theorem introduces_emitGlobals {globals : List Global} (hglobals : ∀ g ∈ globals, g.isExternal → c.Elsewhere g.symbol)
    (hs : s.Introduces c storages) {r : PUnit} (h : (forIn globals PUnit.unit fun g _ => do
      emitGlobal g
      pure (ForInStep.yield PUnit.unit)) s = .ok r t) :
    t.Introduces c (storages ++ globals.filterMap Global.storage?) := by
  induction globals generalizing s storages with
  | nil =>
    cases h
    exact (List.append_nil storages).symm ▸ hs
  | cons g rest ih =>
    rw [List.forIn_cons] at h
    obtain ⟨step, u, hstep, hrest⟩ := Run.bind_eq_ok.mp h
    obtain ⟨⟨⟩, u', hglobal, hyield⟩ := Run.bind_eq_ok.mp hstep
    cases hyield
    obtain ⟨hg, hmore⟩ := List.forall_mem_cons.mp hglobals
    have hall := ih hmore (introduces_emitGlobal hs hg hglobal) hrest
    rw [List.append_assoc] at hall
    cases hvariable : g.storage? <;> simpa [List.filterMap_cons, hvariable] using hall

theorem introduces_declareRuntime {r : Unit} (h : build declareRuntime { context := c } = .ok r t) :
    t.Introduces c [] := by
  have hstart : Emitter.Introduces c { context := c } [] :=
    ⟨rfl, rfl, rfl, List.nodup_nil, fun d hd => absurd hd (Array.not_mem_empty d),
      fun d hd => absurd hd (Array.not_mem_empty d)⟩
  have hrun : (do
      build (Build.declare { name := "malloc", returns := .ptr, params := [.int 64], variadic := false })
      build (Build.declare { name := "free", returns := .void, params := [.ptr], variadic := false })
      build (Build.declare { name := "printf", returns := .int 32, params := [.ptr], variadic := true }))
        { context := c } = .ok r t := h
  obtain ⟨_, s₁, hmalloc, hrun⟩ := Run.bind_eq_ok.mp hrun
  obtain ⟨_, s₂, hfree, hprintf⟩ := Run.bind_eq_ok.mp hrun
  have h₁ := introduces_declare hstart (.inl (isWord_of_all rfl rfl)) hmalloc
  have h₂ := introduces_declare h₁ (.inl (isWord_of_all rfl rfl)) hfree
  exact introduces_declare h₂ (.inl (isWord_of_all rfl rfl)) hprintf

theorem introduces_emitStructs {structs : List StructDef} {r : PUnit} (hs : s.Introduces c storages)
    (h : (forIn structs PUnit.unit fun d _ => do
      emitStruct d
      pure (ForInStep.yield PUnit.unit)) s = .ok r t) : t.Introduces c storages := by
  refine (Run.forIn_rounds (P := (·.Introduces c storages)) (R := fun _ _ => True) (fun _ => trivial)
    (fun _ _ => trivial) (fun d _ s _ t hstruct hs => ?_) h hs).1
  obtain rfl := emitStruct_eq_ok hstruct
  exact ⟨{ hs with }, trivial⟩

theorem introduces_emitBodies {bodies : List Body} (hnested : ∀ body ∈ bodies, body.block.Nested [])
    {r : PUnit} (hs : s.Introduces c storages) (h : (forIn bodies PUnit.unit fun body _ => do
      emitBody body
      pure (ForInStep.yield PUnit.unit)) s = .ok r t) : t.Introduces c storages := by
  refine (Run.forIn_rounds (P := (·.Introduces c storages)) (R := fun _ _ => True) (fun _ => trivial)
    (fun _ _ => trivial) (fun body hbody s _ t hbody' hs => ?_) h hs).1
  obtain ⟨reserved, built, hbuilt, -, rfl⟩ := defines_emitBody (hnested body hbody) hbody'
  have hentering : (s.entering body).Introduces c storages :=
    { hs with known := fun d hd => List.mem_cons_of_mem _ (hs.known d hd) }
  have hall : built.Introduces c storages :=
    introduces_of_collects hentering (hbuilt.grows.context.trans hbuilt.context) hbuilt.whole.collects
  exact ⟨{ hall with }, trivial⟩

theorem introduces_main (hs : s.Introduces c storages) (returns : Ir.Ty) (callee : Ir.Ref) :
    (mainBuilt s returns callee).ended.Introduces c storages := by
  have hopened : Emitter.Introduces c { s with builder := mainOpened s.builder } storages :=
    { hs with known := fun d hd => List.mem_cons_of_mem _ (hs.known d hd) }
  have hall : (mainBuilt s returns callee).Introduces c storages :=
    introduces_of_collects hopened rfl (grows_mainCode returns callee (mainOpened s.builder)).collects
  exact { hall with }

theorem introduces_emitProgram (hc : c.Finished) (hnested : ∀ body ∈ c.bodies, body.block.Nested []) {r : Unit}
    (h : emitProgram { context := c } = .ok r t) :
    t.Introduces c (c.globals.toList.filterMap Global.storage?) := by
  obtain ⟨s₁, s₂, s₃, s₄, hruntime, hstructs, hglobals, hbodies, hentry⟩ := emitProgram_eq_ok h
  have h₃ := introduces_emitGlobals (fun g hg hexternal => by
    obtain ⟨i, hi, rfl⟩ := Check.exists_index (Array.mem_toList_iff.mp hg)
    exact hc.elsewhere (show (GlobalId.mk i).index < c.globals.size from hi) hexternal)
    (introduces_emitStructs (introduces_declareRuntime hruntime) hstructs) hglobals
  have h₄ := introduces_emitBodies (fun body hbody => hnested body (Array.mem_toList_iff.mp hbody)) h₃ hbodies
  rcases hentry with ⟨-, rfl⟩ | ⟨entry, -, hentry⟩
  · exact h₄
  · obtain rfl := emitEntry_eq_ok hentry
    exact introduces_main h₄ _ _

/-! ### Different names -/

theorem storage?_eq_some {g : Global} {name : String} (h : g.storage? = some name) :
    ¬g.isFunction ∧ g.symbol = name := by
  unfold Global.storage? at h
  unfold Global.isFunction Global.fnDecl?
  split at h
  · rename_i hkind
    rw [hkind]
    exact ⟨Bool.false_ne_true, Option.some.inj h⟩
  · cases h
  · cases h

theorem not_isExternal {g : Global} (h : ¬g.isFunction) : ¬g.isExternal := by
  unfold Global.isFunction at h
  unfold Global.isExternal
  cases hdecl : g.fnDecl? with
  | none => exact Bool.false_ne_true
  | some decl =>
    rw [hdecl] at h
    exact absurd rfl h

theorem isFunction_of_hasBody {g : Global} (h : g.hasBody) : g.isFunction := by
  by_contra hfunction
  rw [Global.hasBody, Option.not_isSome_iff_eq_none.mp hfunction] at h
  cases h

/-- Where the symbol of a variable comes from. -/
theorem exists_variable {name : String} (h : name ∈ c.globals.toList.filterMap Global.storage?) :
    ∃ id, c.Pathed id ∧ ¬(c.global id).isFunction ∧ (c.global id).symbol = name := by
  obtain ⟨g, hg, hname⟩ := List.mem_filterMap.mp h
  obtain ⟨i, hi, rfl⟩ := Check.exists_index (Array.mem_toList_iff.mp hg)
  obtain ⟨hvariable, hsymbol⟩ := storage?_eq_some hname
  exact ⟨⟨i⟩, ⟨hi, fun _ => not_isExternal hvariable⟩, hvariable, hsymbol⟩

theorem exists_variable_of_name (ht : t.Introduces c (c.globals.toList.filterMap Global.storage?)) {g : Ir.Global}
    (hg : g ∈ t.builder.module.globals) {name : String} (hname : g.name = .symbol name) :
    ∃ id, c.Pathed id ∧ ¬(c.global id).isFunction ∧ (c.global id).symbol = name := by
  refine exists_variable (ht.storages ▸ List.mem_filterMap.mpr ⟨g, Array.mem_toList_iff.mpr hg, ?_⟩)
  cases g <;> cases hname
  rfl

/-- Variables have different symbols. -/
theorem nodup_variables (hc : c.Finished) : (c.globals.toList.filterMap Global.storage?).Nodup := by
  refine List.pairwise_filterMap.mpr (List.pairwise_iff_getElem.mpr fun i j hi hj hlt name hname name' hname' hsame => ?_)
  have hpathed {k : ℕ} (hk : k < c.globals.toList.length) {name : String}
      (hname : c.globals.toList[k].storage? = some name) :
      c.Pathed ⟨k⟩ ∧ (c.global ⟨k⟩).symbol = name := by
    have hglobal : c.global ⟨k⟩ = c.globals.toList[k] := by simp [Context.global, Array.length_toList ▸ hk]
    rw [← hglobal] at hname
    obtain ⟨hvariable, hsymbol⟩ := storage?_eq_some hname
    exact ⟨⟨hk, fun _ => not_isExternal hvariable⟩, hsymbol⟩
  obtain ⟨hid, hsymbol⟩ := hpathed hi hname
  obtain ⟨hid', hsymbol'⟩ := hpathed hj hname'
  have hids := hc.symbol_inj hid hid' (hsymbol.trans (hsame.trans hsymbol'.symm))
  exact Nat.ne_of_lt hlt (congrArg GlobalId.index hids)

/-- Functions that have bodies are defined under different symbols. -/
theorem nodup_functions (hc : c.Finished) (hprogram : EmittedProgram c t functions last) :
    (functions.map (·.name)).Nodup := by
  rw [names_bodies hprogram]
  have hnodup : (c.bodies.toList.map (·.function)).Nodup := hc.functions ▸ Context.nodup_bodied c
  refine List.Nodup.map_on (fun body hbody body' hbody' hsame => ?_) (List.Nodup.of_map _ hnodup)
  have hids := hc.symbol_inj (Context.pathed_of_hasBody (hc.hasBody (Array.mem_toList_iff.mp hbody)))
    (Context.pathed_of_hasBody (hc.hasBody (Array.mem_toList_iff.mp hbody'))) hsame
  exact List.inj_on_of_nodup_map hnodup hbody hbody' hids

/-- Where the symbol of a function comes from. -/
theorem exists_function (hc : c.Finished) (hprogram : EmittedProgram c t functions last) {f : Ir.Function}
    (hf : f ∈ functions) : ∃ id, c.Pathed id ∧ (c.global id).hasBody ∧ (c.global id).symbol = f.name := by
  have hname : f.name ∈ functions.map (·.name) := List.mem_map_of_mem hf
  rw [names_bodies hprogram] at hname
  obtain ⟨body, hbody, hsymbol⟩ := List.mem_map.mp hname
  have hhas := hc.hasBody (Array.mem_toList_iff.mp hbody)
  exact ⟨body.function, Context.pathed_of_hasBody hhas, hhas, hsymbol⟩

/-- Variables and string constants have different names if they have among themselves. -/
theorem nodup_names {globals : List Ir.Global} (hsymbols : (globals.filterMap Ir.Global.symbol?).Nodup)
    (hnumbers : ((globals.filterMap Ir.Global.constant?).map (·.2)).Nodup) : (globals.map Ir.Global.name).Nodup := by
  induction globals with
  | nil => exact List.nodup_nil
  | cons g rest ih =>
    cases g with
    | named name constant value =>
      obtain ⟨hnew, hrest⟩ := List.nodup_cons.mp hsymbols
      refine List.nodup_cons.mpr ⟨fun hname => hnew ?_, ih hrest hnumbers⟩
      obtain ⟨g, hg, hsame⟩ := List.mem_map.mp hname
      refine List.mem_filterMap.mpr ⟨g, hg, ?_⟩
      cases g <;> cases hsame
      rfl
    | string number text =>
      obtain ⟨hnew, hrest⟩ := List.nodup_cons.mp hnumbers
      refine List.nodup_cons.mpr ⟨fun hname => hnew ?_, ih hsymbols hrest⟩
      obtain ⟨g, hg, hsame⟩ := List.mem_map.mp hname
      cases g <;> cases hsame
      exact List.mem_map.mpr ⟨_, List.mem_filterMap.mpr ⟨_, hg, rfl⟩, rfl⟩

/-- The module without the function that calls the entry point. -/
def withoutEntry (m : Ir.Module) (functions : List Ir.Function) : Ir.Module :=
  { m with definitions := functions.toArray }

/-- Without the function that calls the entry point, a module introduces each name once. -/
theorem nodup_introduced (hc : c.Finished) (hprogram : EmittedProgram c t functions last)
    (ht : t.Introduces c (c.globals.toList.filterMap Global.storage?)) :
    (withoutEntry t.builder.module functions).introduced.Nodup := by
  have helsewhere {id : GlobalId} (hid : c.Pathed id) (hprovided : ¬(c.global id).isExternal) {d : Ir.Declaration}
      (hd : d ∈ t.builder.module.declarations.toList) : (c.global id).symbol ≠ d.name :=
    hc.symbol_ne_elsewhere hid hprovided (ht.elsewhere d (Array.mem_toList_iff.mp hd))
  unfold Ir.Module.introduced withoutEntry
  refine List.nodup_append.mpr ⟨List.nodup_append.mpr ⟨List.nodup_append.mpr ⟨?structs, ?globals, ?_⟩,
    ?declarations, ?_⟩, ?functions, ?_⟩
  case structs =>
    have hstructs := (symbols_structs hc hprogram).2
    rw [← List.nodup_map_iff (fun _ _ => Ir.Name.struct.inj), List.map_map] at hstructs
    exact hstructs
  case globals =>
    refine nodup_names (ht.storages ▸ nodup_variables hc) ?_
    have hconstants := ht.constants
    unfold Ir.Module.constants at hconstants
    rw [hconstants, List.zipIdx_map_snd]
    exact List.nodup_range'
  case declarations =>
    have hdeclared := ht.declared
    rw [← List.nodup_map_iff (fun _ _ => Ir.Name.symbol.inj), List.map_map] at hdeclared
    exact hdeclared
  case functions =>
    have hfunctions := nodup_functions hc hprogram
    rw [← List.nodup_map_iff (fun _ _ => Ir.Name.symbol.inj), List.map_map] at hfunctions
    exact hfunctions
  · rintro _ ha _ hb rfl
    obtain ⟨d, -, rfl⟩ := List.mem_map.mp ha
    obtain ⟨g, -, hname⟩ := List.mem_map.mp hb
    cases g <;> cases hname
  · rintro _ ha _ hb rfl
    obtain ⟨d, hd, rfl⟩ := List.mem_map.mp hb
    rcases List.mem_append.mp ha with ha | ha
    · obtain ⟨_, -, hname⟩ := List.mem_map.mp ha
      cases hname
    · obtain ⟨g, hg, hname⟩ := List.mem_map.mp ha
      obtain ⟨id, hid, hnone, hsymbol⟩ := exists_variable_of_name ht (Array.mem_toList_iff.mp hg) hname
      exact helsewhere hid (not_isExternal hnone) hd hsymbol
  · rintro _ ha _ hb rfl
    obtain ⟨f, hf, rfl⟩ := List.mem_map.mp hb
    obtain ⟨id, hid, hbody, hsymbol⟩ := exists_function hc hprogram hf
    rcases List.mem_append.mp ha with ha | ha
    · rcases List.mem_append.mp ha with ha | ha
      · obtain ⟨_, -, hname⟩ := List.mem_map.mp ha
        cases hname
      · obtain ⟨g, hg, hname⟩ := List.mem_map.mp ha
        obtain ⟨id', hid', hnone, hsymbol'⟩ := exists_variable_of_name ht (Array.mem_toList_iff.mp hg) hname
        obtain rfl := hc.symbol_inj hid hid' (hsymbol.trans hsymbol'.symm)
        exact hnone (isFunction_of_hasBody hbody)
    · obtain ⟨d, hd, hname⟩ := List.mem_map.mp ha
      exact helsewhere hid (Context.not_isExternal_of_hasBody hbody) hd (hsymbol.trans (Ir.Name.symbol.inj hname).symm)

/-- What calls the entry point is defined behind all else, as `main`. -/
theorem introduced_eq (hprogram : EmittedProgram c t functions last) :
    t.builder.module.introduced = (withoutEntry t.builder.module functions).introduced ++ last.map (.symbol ·.name) := by
  unfold Ir.Module.introduced withoutEntry
  rw [hprogram.definitions, List.map_append, ← List.append_assoc]

/-- Each name is introduced once, but for `main`, which is declared as well as defined if a function of that name is
defined elsewhere and another function is the entry point. -/
theorem introduces_emitModule (hc : c.Finished) (hnested : ∀ body ∈ c.bodies, body.block.Nested []) {m : Ir.Module}
    (h : emitModule c = .ok m) : (m.introduced.erase (.symbol "main")).Nodup ∧
      (m.introduced.Nodup ↔ ¬((∃ d ∈ m.declarations, d.name = "main") ∧ ∃ f ∈ m.definitions, f.name = "main")) := by
  obtain ⟨t, hrun, rfl⟩ := emitModule_eq_ok h
  obtain ⟨functions, last, hprogram⟩ := emitted_emitProgram hnested hrun
  have ht := introduces_emitProgram hc hnested hrun
  have hfront := nodup_introduced hc hprogram ht
  have hfunctions : ∀ f ∈ functions, f.name ≠ "main" := by
    intro f hf hname
    obtain ⟨id, hid, -, hsymbol⟩ := exists_function hc hprogram hf
    exact hc.symbol_ne_word hid isWord_main (hsymbol.trans hname)
  have hmain : .symbol "main" ∈ (withoutEntry t.builder.module functions).introduced ↔
      ∃ d ∈ t.builder.module.declarations, d.name = "main" := by
    simp only [Ir.Module.introduced, withoutEntry, List.mem_append, List.mem_map, Array.mem_toList_iff]
    constructor
    · rintro (((⟨_, -, ⟨⟩⟩ | ⟨g, hg, hname⟩) | ⟨d, hd, hname⟩) | ⟨f, hf, hname⟩)
      · obtain ⟨id, hid, -, hsymbol⟩ := exists_variable_of_name ht hg hname
        exact absurd hsymbol (hc.symbol_ne_word hid isWord_main)
      · exact ⟨d, hd, Ir.Name.symbol.inj hname⟩
      · exact absurd (Ir.Name.symbol.inj hname) (hfunctions f hf)
    · rintro ⟨d, hd, hname⟩
      exact .inl (.inr ⟨d, hd, congrArg Ir.Name.symbol hname⟩)
  have hdefinitions (f : Ir.Function) : f ∈ t.builder.module.definitions ↔ f ∈ functions ∨ f ∈ last := by
    rw [← Array.mem_toList_iff, hprogram.definitions, List.mem_append]
  rw [introduced_eq hprogram]
  rcases hprogram.entry with ⟨-, rfl⟩ | ⟨entry, s, -, -, -, rfl⟩
  · rw [List.map_nil, List.append_nil]
    refine ⟨hfront.erase _, iff_of_true hfront ?_⟩
    rintro ⟨-, f, hf, hname⟩
    exact hfunctions f (((hdefinitions f).mp hf).resolve_right List.not_mem_nil) hname
  · have hperm (l : List Ir.Name) : List.Perm (l ++ [Ir.Name.symbol "main"]) (Ir.Name.symbol "main" :: l) :=
      List.perm_append_singleton _ _
    have hlast := name_main s (entryType c entry) (.symbol (c.global entry).symbol)
    rw [show ([(mainBuilt s (entryType c entry) (.symbol (c.global entry).symbol)).fn.definition].map
      (Ir.Name.symbol ·.name)) = [.symbol "main"] from congrArg (fun name => [Ir.Name.symbol name]) hlast]
    refine ⟨((hperm _).erase _).nodup_iff.mpr ?_, (hperm _).nodup_iff.trans ?_⟩
    · rw [List.erase_cons_head]
      exact hfront
    · rw [List.nodup_cons, hmain]
      refine ⟨fun h hboth => h.1 hboth.1, fun h => ⟨fun hdeclared => h ⟨hdeclared, ?_⟩, hfront⟩⟩
      exact ⟨_, (hdefinitions _).mpr (.inr (List.mem_singleton_self _)), hlast⟩

end Emit

/-- Every name is introduced once. Whatever program is compiled, its module introduces no struct type, no variable, no
string constant and no function twice, but for `main`: the module declares and defines it if the program has a
function `main` that is defined elsewhere, and a function that is its entry point. -/
theorem compile_introduces {options : Options} {files : List SourceFile} {compiled : Compilation}
    (h : compile options files = .ok compiled) : (compiled.module.introduced.erase (.symbol "main")).Nodup ∧
      (compiled.module.introduced.Nodup ↔ ¬((∃ d ∈ compiled.module.declarations, d.name = "main") ∧
        ∃ f ∈ compiled.module.definitions, f.name = "main")) := by
  obtain ⟨c, hchecked, hmodule⟩ := compile_eq_ok h
  obtain ⟨files, hparsed, hrun⟩ := checkProgram_eq_ok hchecked
  have hc : c.Finished := Check.finished_checkModules (worded_parseProgram hparsed) hrun
  have hreachable := Session.reachable_checkProgram hchecked
  exact Emit.introduces_emitModule hc (fun body hbody => (hreachable.orderly body hbody).nested) hmodule

/-- The entry point calls a function `main` that is defined elsewhere. -/
example : (compile { includeStd := false, entryFunction := "start" }
    [⟨"main.own", "fn main(): i32; fn start(): i32 \x7b return main(); \x7d"⟩]).toOption.map
      (·.module.introduced.count (.symbol "main")) = some 2 := by
  decide +kernel

end OwnLang
