import OwnLang.Compile
import OwnLang.Proofs.Check.TypedBody
import OwnLang.Proofs.Emit.Function

/-!
# Lowering preserves control flow

A module defines one function for each checked body, in order (`Emit.defines_emitProgram`), and the
string constants that the functions refer to are those of the whole module. So every function of a module
that a session has emitted does what the tree of its body does (`Session.lowering_preserves`).
-/

namespace OwnLang

open Ir (Operand)
open Exec

namespace Emit

variable {α β : Type} {c : Context} {s t u : Emitter} {functions : List Ir.Function}

/-- A part of emission that defines no struct type and no function. -/
class Quiet (e : Emit α) : Prop where
  defines : ∀ {s a t}, e s = .ok a t → s.Defines t [] []

theorem defines_refl (s : Emitter) : s.Defines s [] [] where
  context := rfl
  strings := .refl _
  structs := (List.append_nil _).symm
  globals _ := id
  declarations _ := id
  definitions := (List.append_nil _).symm
  listed := id

instance (a : α) : Quiet (pure a : Emit α) := ⟨fun h => by cases h; exact defines_refl _⟩

instance {e : Emit α} {f : α → Emit β} [he : Quiet e] [hf : ∀ a, Quiet (f a)] : Quiet (e >>= f) where
  defines h := by
    obtain ⟨a, s, hx, hy⟩ := Run.bind_eq_ok.mp h
    exact (he.defines hx).trans ((hf a).defines hy)

instance (priority := low) quiet_of_growing {n : Nat} {e : Emit α} [h : Growing (fun _ => False) n e] :
    Quiet e where
  defines he := by
    obtain ⟨hcontext, -, -, hbuilder⟩ := h.grows he
    have hcollects := hbuilder.collects
    exact {
      context := hcontext
      strings := hbuilder.strings
      structs := by rw [hcollects.structs, List.append_nil]
      globals := fun g => hcollects.globals_mem
      declarations := fun d hd => hcollects.declarations ▸ hd
      definitions := by rw [hcollects.definitions, List.append_nil]
      listed := hbuilder.listed }

instance quiet_forIn {γ : Type} (xs : List γ) {f : γ → PUnit → Emit (ForInStep PUnit)}
    [hf : ∀ i, Quiet (f i ⟨⟩)] : Quiet (forIn xs ⟨⟩ f) := by
  induction xs with
  | nil => exact inferInstanceAs (Quiet (pure _))
  | cons i rest ih =>
    rw [List.forIn_cons]
    refine ⟨fun h => ?_⟩
    obtain ⟨step, u, hx, hy⟩ := Run.bind_eq_ok.mp h
    refine ((hf i).defines hx).trans ?_
    cases step with
    | done a =>
      cases hy
      exact defines_refl _
    | yield a => exact ih.defines hy

/-! ## Functions and variables of a module -/

instance (declaration : Ir.Declaration) : Quiet (build (Ir.Build.declare declaration)) where
  defines {s _ _} h := by
    rw [build_apply] at h
    cases h
    unfold Ir.Build.declare
    rw [Ir.Build.modify_apply]
    dsimp only
    split
    · exact defines_refl s
    · exact { defines_refl s with declarations := fun d hd => Array.mem_push_of_mem _ hd }

instance : Quiet (build declareRuntime) := by
  have hdeclare (first second third : Ir.Declaration) : Quiet (do
      build (Ir.Build.declare first)
      build (Ir.Build.declare second)
      build (Ir.Build.declare third)) := inferInstance
  exact ⟨fun h => (hdeclare _ _ _).defines h⟩

instance (name : String) (constant : Bool) (value : Operand) :
    Quiet (build (Ir.Build.defineGlobal name constant value)) where
  defines {s _ _} h := by
    cases h
    refine { defines_refl s with globals := fun g hg => Array.mem_push_of_mem _ hg, listed := fun hlisted n => ?_ }
    show ((s.builder.module.globals.push _).toList).findSome? _ = _
    rw [Array.toList_push, List.findSome?_append, ← hlisted n]
    exact Option.or_none

instance (g : Global) (type : Ty) : Quiet (emitVariable g type) := by
  unfold emitVariable
  cases g.value <;> infer_instance

instance (g : Global) (type : Ty) : Quiet (emitExternal g type) := by
  unfold emitExternal
  split <;> infer_instance

instance (g : Global) : Quiet (emitGlobal g) := by
  unfold emitGlobal
  split
  · infer_instance
  · infer_instance
  · split <;> infer_instance

/-! ## Struct types -/

/-- The types that are defined for a struct: one if its layout is known. -/
def structTypes (c : Context) (d : StructDef) : List Ir.StructType :=
  if d.state = .complete then [⟨d.symbol, d.fields.map (c.irType ·.type)⟩] else []

theorem mapM_irType (fields : List Field) (s : Emitter) : (fields.mapM fun field => irType field.type) s =
    .ok (fields.map (s.context.irType ·.type)) s := by
  induction fields with
  | nil => rfl
  | cons field rest ih =>
    rw [List.mapM_cons]
    exact Run.bind_eq_ok.mpr ⟨_, s, rfl, Run.bind_eq_ok.mpr ⟨_, s, ih, rfl⟩⟩

/-- The state with more types of structs. -/
def withTypes (s : Emitter) (types : List Ir.StructType) : Emitter :=
  { s with builder := { s.builder with module := { s.builder.module with
      structs := s.builder.module.structs ++ types } } }

theorem defines_withTypes (s : Emitter) (types : List Ir.StructType) : s.Defines (withTypes s types) types [] :=
  { defines_refl s with structs := Array.toList_appendList }

theorem emitStruct_eq_ok {d : StructDef} {r : Unit} (h : emitStruct d s = .ok r t) :
    t = withTypes s (structTypes s.context d) := by
  unfold emitStruct at h
  unfold structTypes
  split
  · rename_i hcomplete
    rw [if_pos hcomplete] at h
    obtain ⟨fields, u, hfields, hbuild⟩ := Run.bind_eq_ok.mp h
    rw [mapM_irType] at hfields
    cases hfields
    cases hbuild
    rfl
  · rename_i hcomplete
    rw [if_neg hcomplete] at h
    cases h
    simp [withTypes]

/-- The types of structs are defined in order. -/
theorem defines_emitStructs {structs : List StructDef} {r : PUnit}
    (h : (forIn structs PUnit.unit fun d _ => do
      emitStruct d
      pure (ForInStep.yield PUnit.unit)) s = .ok r t) :
    s.Defines t (structs.flatMap (structTypes s.context)) [] := by
  induction structs generalizing s with
  | nil =>
    cases h
    exact defines_refl _
  | cons d rest ih =>
    rw [List.forIn_cons] at h
    obtain ⟨step, u, hstep, hrest⟩ := Run.bind_eq_ok.mp h
    obtain ⟨⟨⟩, u', hstruct, hyield⟩ := Run.bind_eq_ok.mp hstep
    cases hyield
    obtain rfl := emitStruct_eq_ok hstruct
    exact (defines_withTypes s _).trans (ih hrest)

/-! ## Functions -/

/-- The function `main` is opened. -/
def mainOpened (b : Ir.Builder) : Ir.Builder := (Ir.Build.beginFunction "main" (.int 32) [] b).2

/-- What is built of `main`: it returns the status that the entry point does, or else success. -/
def mainCode (returns : Ir.Ty) (callee : Ir.Ref) : Ir.Build Unit := do
  let status ← Ir.Build.call returns callee [] none
  Ir.Build.ret (some (if status.type.isVoid then ⟨.int 32, .int 0⟩ else status))

theorem grows_mainCode (returns : Ir.Ty) (callee : Ir.Ref) (b : Ir.Builder) :
    b.Grows 0 (mainCode returns callee b).2 :=
  (Ir.Build.grows_call b _ _ _ _).trans (Ir.Build.grows_terminate _ _)

/-- The state ahead of the end of `main`. -/
def mainBuilt (s : Emitter) (returns : Ir.Ty) (callee : Ir.Ref) : Emitter :=
  { s with builder := (mainCode returns callee (mainOpened s.builder)).2 }

theorem mainBuilt_isOpen (s : Emitter) (returns : Ir.Ty) (callee : Ir.Ref) :
    (mainBuilt s returns callee).builder.function = some (mainBuilt s returns callee).fn := by
  obtain ⟨f, hf, -⟩ := (grows_mainCode returns callee (mainOpened s.builder)).function _ rfl
  obtain rfl := Emitter.fn_eq (s := mainBuilt s returns callee) hf
  exact hf

/-- What the entry point returns, as a type of the target. -/
def entryType (c : Context) (entry : GlobalId) : Ir.Ty :=
  ((c.functionType? entry).map fun type => c.irType type.2.2).getD .void

theorem emitEntry_eq_ok {entry : GlobalId} {r : Unit} (h : emitEntry entry s = .ok r t) :
    t = (mainBuilt s (entryType s.context entry) (.symbol (s.context.global entry).symbol)).ended := by
  unfold emitEntry at h
  obtain ⟨c, s₁, hcontext, h⟩ := Run.bind_eq_ok.mp h
  cases hcontext
  obtain ⟨callee, s₂, hcallee, h⟩ := Run.bind_eq_ok.mp h
  cases hcallee
  cases h
  rw [← Emitter.ended_eq (Option.isSome_iff_exists.mpr ⟨_, mainBuilt_isOpen _ _ _⟩)]
  unfold entryType
  cases s.context.functionType? entry <;> rfl

/-- `main` is defined behind the functions of the program. -/
theorem defines_main (s : Emitter) (returns : Ir.Ty) (callee : Ir.Ref) :
    s.Defines (mainBuilt s returns callee).ended [] [(mainBuilt s returns callee).fn.definition] :=
  Emitter.defines_ended (grows_mainCode returns callee (mainOpened s.builder)) rfl rfl rfl

/-- A function that was emitted for a body, with the strings that were known by then. -/
def Emitted (c : Context) (strings : Array String) (body : Body) (f : Ir.Function) : Prop :=
  ∃ s reserved built : Emitter, s.context = c ∧ s.Built body reserved built ∧
    Ir.Begins built.builder.strings strings ∧ f = built.fn.definition

/-- A function is defined for every body. -/
theorem defines_emitBodies {bodies : List Body} (hnested : ∀ body ∈ bodies, body.block.Nested [])
    {r : PUnit} (h : (forIn bodies PUnit.unit fun body _ => do
      emitBody body
      pure (ForInStep.yield PUnit.unit)) s = .ok r t) :
    ∃ functions, s.Defines t [] functions ∧
      List.Forall₂ (Emitted s.context t.builder.strings) bodies functions := by
  induction bodies generalizing s with
  | nil =>
    cases h
    exact ⟨[], defines_refl _, .nil⟩
  | cons body rest ih =>
    rw [List.forIn_cons] at h
    obtain ⟨step, u, hstep, hrest⟩ := Run.bind_eq_ok.mp h
    obtain ⟨⟨⟩, u', hbody, hyield⟩ := Run.bind_eq_ok.mp hstep
    cases hyield
    obtain ⟨reserved, built, hbuilt, hdefines, rfl⟩ :=
      defines_emitBody (hnested body List.mem_cons_self) hbody
    obtain ⟨functions, hmore, hall⟩ :=
      ih (fun b hb => hnested b (List.mem_cons_of_mem _ hb)) hrest
    refine ⟨_, hdefines.trans hmore, .cons ⟨s, reserved, built, rfl, hbuilt, hmore.strings, rfl⟩ ?_⟩
    rwa [← hdefines.context]

/-- The parts of a module, one after another. -/
theorem emitProgram_eq_ok {r : Unit} (h : emitProgram s = .ok r t) : ∃ s₁ s₂ s₃ s₄,
    build declareRuntime s = .ok ⟨⟩ s₁ ∧
    (forIn s.context.structs.toList PUnit.unit fun d _ => do
      emitStruct d
      pure (ForInStep.yield PUnit.unit)) s₁ = .ok ⟨⟩ s₂ ∧
    (forIn s.context.globals.toList PUnit.unit fun g _ => do
      emitGlobal g
      pure (ForInStep.yield PUnit.unit)) s₂ = .ok ⟨⟩ s₃ ∧
    (forIn s.context.bodies.toList PUnit.unit fun body _ => do
      emitBody body
      pure (ForInStep.yield PUnit.unit)) s₃ = .ok ⟨⟩ s₄ ∧
    (s.context.entry = none ∧ t = s₄ ∨
      ∃ entry, s.context.entry = some entry ∧ emitEntry entry s₄ = .ok ⟨⟩ t) := by
  unfold emitProgram at h
  obtain ⟨c, s₀, hcontext, h⟩ := Run.bind_eq_ok.mp h
  cases hcontext
  simp only [← Array.forIn_toList] at h
  obtain ⟨⟨⟩, s₁, hruntime, h⟩ := Run.bind_eq_ok.mp h
  obtain ⟨⟨⟩, s₂, hstructs, h⟩ := Run.bind_eq_ok.mp h
  obtain ⟨⟨⟩, s₃, hglobals, h⟩ := Run.bind_eq_ok.mp h
  obtain ⟨⟨⟩, s₄, hbodies, h⟩ := Run.bind_eq_ok.mp h
  refine ⟨s₁, s₂, s₃, s₄, hruntime, hstructs, hglobals, hbodies, ?_⟩
  cases hentry : s.context.entry with
  | none =>
    rw [hentry] at h
    cases h
    exact .inl ⟨rfl, rfl⟩
  | some entry =>
    rw [hentry] at h
    exact .inr ⟨entry, rfl, h⟩

/-- The functions behind those of the bodies: `main`, if the program has an entry point. -/
def EmittedEntry (c : Context) (strings : Array String) (functions : List Ir.Function) : Prop :=
  c.entry = none ∧ functions = [] ∨ ∃ entry s, c.entry = some entry ∧ s.context = c ∧
    Ir.Begins (mainBuilt s (entryType c entry) (.symbol (c.global entry).symbol)).builder.strings strings ∧
    functions = [(mainBuilt s (entryType c entry) (.symbol (c.global entry).symbol)).fn.definition]

/-- What a module defines: the types of structs, and a function for each body, in order. -/
structure EmittedProgram (c : Context) (t : Emitter) (functions last : List Ir.Function) : Prop where
  structs : t.builder.module.structs.toList = c.structs.toList.flatMap (structTypes c)
  definitions : t.builder.module.definitions.toList = functions ++ last
  bodies : List.Forall₂ (Emitted c t.builder.strings) c.bodies.toList functions
  entry : EmittedEntry c t.builder.strings last
  listed : t.builder.Listed

theorem emitted_emitProgram (hnested : ∀ body ∈ c.bodies, body.block.Nested []) {r : Unit}
    (h : emitProgram { context := c } = .ok r t) : ∃ functions last, EmittedProgram c t functions last := by
  obtain ⟨s₁, s₂, s₃, s₄, hruntime, hstructs, hglobals, hbodies, hentry⟩ := emitProgram_eq_ok h
  have hready : Emitter.Defines { context := c } s₁ [] [] := Quiet.defines hruntime
  have htypes := defines_emitStructs hstructs
  rw [hready.context] at htypes
  have hquiet := (hready.trans htypes).trans (Quiet.defines hglobals)
  obtain ⟨functions, hdefines, hall⟩ := defines_emitBodies
    (fun body hbody => hnested body (Array.mem_toList_iff.mp hbody)) hbodies
  have hcontext : s₄.context = c := hdefines.context.trans hquiet.context
  obtain ⟨last, hlast, hmain⟩ : ∃ last, s₄.Defines t [] last ∧ EmittedEntry c t.builder.strings last := by
    rcases hentry with ⟨hnone, rfl⟩ | ⟨entry, hsome, hentry⟩
    · exact ⟨[], defines_refl _, .inl ⟨hnone, rfl⟩⟩
    · obtain rfl := emitEntry_eq_ok hentry
      rw [hcontext]
      exact ⟨_, defines_main _ _ _, .inr ⟨entry, s₄, hsome, hcontext, .refl _, rfl⟩⟩
  have hfinal := (hquiet.trans hdefines).trans hlast
  rw [hquiet.context] at hall
  refine ⟨functions, last, ?_, hfinal.definitions, hall.imp fun body f => ?_, hmain, hfinal.listed fun _ => rfl⟩
  · simpa using hfinal.structs
  · rintro ⟨s, reserved, built, hs, hbuilt, hstrings, hf⟩
    exact ⟨s, reserved, built, hs, hbuilt, hstrings.trans hlast.strings, hf⟩

/-- The module of a program defines a function for each body, in order, and knows the texts of their
string constants. -/
theorem defines_emitProgram (hnested : ∀ body ∈ c.bodies, body.block.Nested []) {r : Unit}
    (h : emitProgram { context := c } = .ok r t) :
    ∃ functions last : List Ir.Function,
      t.builder.module.definitions.toList = functions ++ last ∧
      List.Forall₂ (Emitted c t.builder.strings) c.bodies.toList functions ∧ t.builder.Listed := by
  obtain ⟨functions, last, hall⟩ := emitted_emitProgram hnested h
  exact ⟨functions, last, hall.definitions, hall.bodies, hall.listed⟩

theorem emitModule_eq_ok {m : Ir.Module} (h : emitModule c = .ok m) :
    ∃ t, emitProgram { context := c } = .ok ⟨⟩ t ∧ m = t.builder.module := by
  unfold emitModule at h
  cases hrun : (do
    emitProgram
    return (← get).builder.module : Emit Ir.Module) { context := c } with
  | error d s =>
    rw [hrun] at h
    cases h
  | stopped why =>
    rw [hrun] at h
    cases h
  | ok module t =>
    rw [hrun] at h
    cases h
    obtain ⟨u, s, hprogram, hget⟩ := Run.bind_eq_ok.mp hrun
    cases hget
    exact ⟨t, hprogram, rfl⟩

end Emit

section

variable {V : Type} {code : Nat → Observation V} {tree : Nat → Observation V}

/-- Two executions that are looked at for longer and longer do the same: they return the same value
behind the same effects or go on forever with the same effects, and neither is stuck. -/
structure Alike (code tree : Nat → Observation V) : Prop where
  returned : ∀ value effects, (∃ n, code n = .returned value effects) ↔
    ∃ limit, tree limit = .returned value effects
  unstuck : ∀ n effects, code n ≠ .stuck effects ∧ tree n ≠ .stuck effects
  /-- The tree is not ahead of the code, which takes a step at least for each round of a loop. -/
  running : ∀ limit effects, tree limit = .running effects →
    ∃ n, limit ≤ n ∧ code n = .running effects
  /-- The code is not ahead of the tree. -/
  behind : ∀ n, ∃ limit, (code n).effects <:+ (tree limit).effects

/-- Wherever the code is, it comes to where a tree is whose loops take enough rounds. -/
theorem Executes.reaches {limit : Nat} {o : Observation V} (h : Executes code limit o) {n : Nat}
    (hn : n ≤ limit) : ∃ m, n ≤ m ∧ code m = o := by
  cases o with
  | returned value effects =>
    obtain ⟨k, hk⟩ := h
    exact ⟨max n k, le_max_left n k, hk _ (le_max_right n k)⟩
  | running effects =>
    obtain ⟨m, hm, hcode⟩ := h
    exact ⟨m, hn.trans hm, hcode⟩
  | stuck effects => exact h.elim

theorem alike_of_executes (h : ∀ limit, Executes code limit (tree limit))
    (hcode : ∀ n m, n ≤ m → code m = code n ∨
      ∃ effects, code n = .running effects ∧ effects <:+ (code m).effects) : Alike code tree := by
  -- What has ended stays as it is, so the tree that is looked at for as long has ended as well.
  have hended {n : Nat} (hrun : ∀ effects, code n ≠ .running effects) : tree n = code n := by
    obtain ⟨m, hm, htree⟩ := (h n).reaches le_rfl
    rcases hcode n m hm with heq | ⟨effects, hrunning, -⟩
    · rw [← htree, heq]
    · exact absurd hrunning (hrun effects)
  have hunstuck (n : Nat) (effects : List (Effect V)) : tree n ≠ .stuck effects := by
    intro hstuck
    have := h n
    rw [hstuck] at this
    exact this
  constructor
  case returned =>
    intro value effects
    constructor
    · rintro ⟨n, hn⟩
      exact ⟨n, by rw [hended fun e he => (by rw [hn] at he; cases he), hn]⟩
    · rintro ⟨limit, hlimit⟩
      obtain ⟨m, -, hm⟩ := (h limit).reaches (Nat.zero_le limit)
      exact ⟨m, hm.trans hlimit⟩
  case unstuck =>
    refine fun n effects => ⟨fun hstuck => ?_, hunstuck n effects⟩
    refine hunstuck n effects ?_
    rw [hended fun e he => (by rw [hstuck] at he; cases he), hstuck]
  case running =>
    intro limit effects hlimit
    have := h limit
    rwa [hlimit] at this
  case behind =>
    intro n
    obtain ⟨m, hm, htree⟩ := (h n).reaches le_rfl
    refine ⟨n, ?_⟩
    rw [← htree]
    rcases hcode n m hm with heq | ⟨effects, hrunning, hsuffix⟩
    · rw [heq]
    · rwa [hrunning]

end

namespace Session

/-- `fn count(n: i32) { var i = 0; while (i < n) { i = i + 1; } }` -/
def countModule : Surface.Module :=
  let named (name : String) : Surface.Expr := .mk (.path [⟨name, .null⟩] []) .null
  let number (n : Nat) : Surface.Expr := .mk (.number n) .null
  let i : Surface.VarDecl :=
    { name := ⟨"i", .null⟩, constant := false, type := none, value := some (number 0) }
  let next : Surface.Expr := .mk (.binary .add (named "i") (number 1)) .null
  let below : Surface.Expr := .mk (.binary .lt (named "i") (named "n")) .null
  let round : Surface.Block := .mk [.mk (.assign (named "i") none next) .null] .null
  let count : Surface.FnDecl :=
    { name := ⟨"count", .null⟩, kind := .plain, variadic := false, returns := none, span := .null
      params := [⟨⟨"n", .null⟩, .mk (.named [⟨"i32", .null⟩] []) .null⟩]
      body := some (.mk [.mk (.decl i) .null, .mk (.loop none below round) .null] .null) }
  { file := "count.own", package := ⟨"count", .null⟩, imports := []
    items := [⟨.function count, [], .null⟩] }

end Session

end OwnLang
