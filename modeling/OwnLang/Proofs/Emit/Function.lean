import OwnLang.Emit.Basic
import OwnLang.Proofs.Check.Accepted
import OwnLang.Proofs.Emit.SimulateBody

/-!
# Executing emitted functions

A function begins with a slot for every local, stores its parameters in theirs, and goes on with the
code of its body. So the function that is emitted for a body does what the tree of the body does
(`Emit.executes_emitBody`).
-/

namespace OwnLang

open Ir (Operand OpenFunction span)
open Exec

/-! ## Slots -/

/-- A function has slots for some locals, and nothing else was emitted of it. -/
structure Emitter.Reserved (locals : List Local) (s : Emitter) : Prop where
  isOpen : s.builder.function.isSome = true
  body : s.fn.body = #[]
  block : s.fn.block = .entry
  active : s.fn.terminated = false
  cells : s.fn.slots.size = locals.length
  size : s.slots.size = locals.length
  slots : ∀ (i : Nat) (address : Operand) (t : Ty), s.slots[i]? = some (address, t) →
    (∃ k type, address = ⟨.ptr, .temp k⟩ ∧ s.fn.slots[i]? = some (k, type)) ∧
      ∃ l, locals[i]? = some l ∧ l.type = t

/-- The state behind a slot for a local, which has a type of the target. -/
def Emitter.withSlot (s : Emitter) (l : Local) (type : Ir.Ty) : Emitter :=
  { s with
    builder := { s.builder with
      function := some { s.fn with
        temps := s.fn.temps + 1, slots := s.fn.slots.push (s.fn.temps + 1, type) } }
    slots := s.slots.push (⟨.ptr, .temp (s.fn.temps + 1)⟩, l.type) }

theorem Emitter.Reserved.withSlot {locals : List Local} {s : Emitter} (h : s.Reserved locals)
    (l : Local) (type : Ir.Ty) : (s.withSlot l type).Reserved (locals ++ [l]) where
  isOpen := rfl
  body := h.body
  block := h.block
  active := h.active
  cells := by
    show (s.fn.slots.push _).size = (locals ++ [l]).length
    simp [h.cells]
  size := by simp [Emitter.withSlot, h.size]
  slots i address t hi := by
    show (∃ k type', address = ⟨.ptr, .temp k⟩ ∧
      (s.fn.slots.push (s.fn.temps + 1, type))[i]? = some (k, type')) ∧ _
    have hpush : (s.slots.push (⟨.ptr, .temp (s.fn.temps + 1)⟩, l.type))[i]? = some (address, t) := hi
    rw [Array.getElem?_push] at hpush
    split at hpush
    · rename_i hlast
      obtain ⟨rfl, rfl⟩ := Prod.mk.inj (Option.some.inj hpush)
      rw [hlast, h.size]
      refine ⟨⟨s.fn.temps + 1, type, rfl, ?_⟩, l, by simp, rfl⟩
      rw [← h.cells]
      exact (Ir.Begins.refl _).last
    · obtain ⟨⟨k, type', haddress, hk⟩, l', hl', htype⟩ := h.slots i address t hpush
      have hlt : i < locals.length := (List.getElem?_eq_some_iff.mp hl').1
      refine ⟨⟨k, type', haddress, Ir.Begins.push _ _ i _ hk⟩, l', ?_, htype⟩
      rwa [List.getElem?_append_left hlt]

namespace Emit

variable {c : Context} {s t : Emitter}

theorem reserveSlots_cons {l : Local} {rest : List Local} {r : Unit}
    (h : reserveSlots (l :: rest) s = .ok r t) (hs : s.builder.function = some s.fn) :
    reserveSlots rest (s.withSlot l (s.context.irType l.type)) = .ok r t := by
  unfold reserveSlots at h
  obtain ⟨type, s₁, htype, h⟩ := Run.bind_eq_ok.mp h
  cases htype
  obtain ⟨address, s₂, hbuild, h⟩ := Run.bind_eq_ok.mp h
  rw [build_apply, Ir.Build.slot_apply _ hs] at hbuild
  cases hbuild
  obtain ⟨u, s₃, hpush, h⟩ := Run.bind_eq_ok.mp h
  cases hpush
  exact h

/-- Every local has a slot. -/
theorem reserved_reserveSlots {locals done : List Local} {r : Unit}
    (h : reserveSlots locals s = .ok r t) (hs : s.Reserved done) :
    t.Reserved (done ++ locals) ∧ t.context = s.context ∧
      s.builder.Grows locals.length t.builder := by
  induction locals generalizing s done with
  | nil =>
    cases h
    rw [List.append_nil]
    exact ⟨hs, rfl, .refl _⟩
  | cons l rest ih =>
    obtain ⟨f, hf⟩ := Option.isSome_iff_exists.mp hs.isOpen
    obtain rfl := Emitter.fn_eq hf
    obtain ⟨hreserved, hcontext, hmore⟩ := ih (reserveSlots_cons h hf) (hs.withSlot l _)
    have hgrows := Ir.Build.grows_slot s.builder (s.context.irType l.type)
    rw [Ir.Build.slot_apply _ hf] at hgrows
    refine ⟨?_, hcontext, ?_⟩
    · rwa [List.append_assoc] at hreserved
    · rw [List.length_cons, Nat.add_comm]
      exact hgrows.trans hmore

/-! ## Parameters -/

instance growing_storeParams {keep : LoopId → Prop} :
    (params : List (LocalId × Operand)) → Growing keep 0 (storeParams params)
  | [] => inferInstanceAs (Growing keep 0 (pure ()))
  | (id, value) :: rest => by
    have : Growing keep 0 (storeParams rest) := growing_storeParams rest
    unfold storeParams
    exact .cast inferInstance rfl

/-- The parameters in order, each with the local that it is stored in. -/
theorem zip_params (params : List LocalId) (type : LocalId → Ir.Ty) (k : Nat) :
    params.zip (((params.map type).zipIdx k).map fun (t, i) => (⟨t, .param i⟩ : Operand)) =
      (params.zipIdx k).map fun (id, i) => (id, ⟨type id, .param i⟩) := by
  induction params generalizing k with
  | nil => rfl
  | cons id rest ih =>
    simp only [List.map_cons, List.zipIdx_cons, List.zip_cons_cons, ih]

end Emit

namespace Stage

variable {V : Type} {g : Stage V} {s t : Emitter} {p q : Point V} {n : Nat}

theorem simulates_storeParams (params : List (LocalId × Nat)) (h : g.At s n p) :
    g.Simulates s p
      (Emit.storeParams (params.map fun (id, i) => (id, ⟨g.x.irType (g.x.localType id), .param i⟩)))
      (g.x.storeParams g.args params) fun t q _ _ => g.At t n q := by
  induction params generalizing s p with
  | nil => exact .pure h
  | cons param rest ih =>
    obtain ⟨id, i⟩ := param
    rw [List.map_cons]
    unfold Emit.storeParams Activation.storeParams
    refine .seq h.isOpen (simulates_slot h id) fun (address, type) t q _ _ hq => ?_
    obtain ⟨⟨hat, haddress⟩, -⟩ := hq
    have hparam : g.Denotes t q ⟨g.x.irType (g.x.localType id), .param i⟩
        ⟨g.x.irType (g.x.localType id), g.args i⟩ := ⟨rfl, rfl, fun k hk => by cases hk⟩
    exact .bind hat.isOpen (simulates_store hat hparam haddress) fun _ u q' _ _ _ hat' => ih hat'

end Stage

/-! ## Functions -/

/-- The function of a body is opened, and it has no slots yet. -/
def Emitter.entering (s : Emitter) (body : Body) : Emitter :=
  let type (id : LocalId) : Ir.Ty := s.context.irType (body.locals[id.index]?.getD default).type
  { s with
    builder := (Ir.Build.beginFunction (s.context.global body.function).symbol
      (s.context.irType body.returns) (body.params.map type) s.builder).2
    slots := #[]
    loops := [] }

/-- The state behind a function that ends. -/
def Emitter.ended (s : Emitter) : Emitter :=
  { s with builder := { s.builder with
      function := none
      module := { s.builder.module with definitions := s.builder.module.definitions.push s.fn.definition } } }

theorem Emitter.ended_eq {s : Emitter} (h : s.builder.function.isSome = true) :
    { s with builder := (Ir.Build.endFunction s.builder).2 } = s.ended := by
  obtain ⟨f, hf⟩ := Option.isSome_iff_exists.mp h
  obtain rfl := Emitter.fn_eq hf
  rw [Ir.Build.endFunction_apply hf]
  rfl

/-- What is emitted of a body behind its slots. -/
def Emit.bodyCode (c : Context) (body : Body) : Emit Unit := do
  let type (id : LocalId) : Ir.Ty := c.irType (body.locals[id.index]?.getD default).type
  storeParams (body.params.zipIdx.map fun (id, i) => (id, ⟨type id, .param i⟩))
  emitBlock body.block

theorem Emit.emitBody_eq_ok {body : Body} {s t : Emitter} {r : Unit} (h : emitBody body s = .ok r t) :
    ∃ reserved built, reserveSlots body.locals.toList (s.entering body) = .ok ⟨⟩ reserved ∧
      bodyCode s.context body reserved = .ok ⟨⟩ built ∧
      t = { built with builder := (Ir.Build.endFunction built.builder).2 } := by
  unfold emitBody at h
  obtain ⟨c, s₁, hcontext, h⟩ := Run.bind_eq_ok.mp h
  cases hcontext
  obtain ⟨values, s₂, hbegin, h⟩ := Run.bind_eq_ok.mp h
  cases hbegin
  obtain ⟨u, s₃, hclear, h⟩ := Run.bind_eq_ok.mp h
  cases hclear
  obtain ⟨⟨⟩, reserved, hreserve, h⟩ := Run.bind_eq_ok.mp h
  obtain ⟨⟨⟩, stored, hstore, h⟩ := Run.bind_eq_ok.mp h
  obtain ⟨⟨⟩, built, hblock, hend⟩ := Run.bind_eq_ok.mp h
  cases hend
  have hzip := zip_params body.params
    (fun id => s.context.irType (body.locals[id.index]?.getD default).type) 0
  exact ⟨reserved, built, hreserve, Run.bind_eq_ok.mpr ⟨⟨⟩, stored, hzip ▸ hstore, hblock⟩, rfl⟩

/-- A function was emitted up to its end. -/
structure Emitter.Built (s : Emitter) (body : Body) (reserved built : Emitter) : Prop where
  reserve : Emit.reserveSlots body.locals.toList (s.entering body) = .ok ⟨⟩ reserved
  slots : reserved.Reserved body.locals.toList
  context : reserved.context = s.context
  code : Emit.bodyCode s.context body reserved = .ok ⟨⟩ built
  grows : reserved.Grows (· ∈ ([] : List LoopId)) body.block.cells built
  whole : (s.entering body).builder.Grows (body.locals.toList.length + body.block.cells) built.builder
  head : built.fn.name = (s.context.global body.function).symbol
  marked : ∀ k, built.fn.marked k ≤ 1
  assigned : ∀ k, built.fn.assigned k ≤ 1

/-- Some struct types and functions were defined behind the others, and nothing was taken back. -/
structure Emitter.Defines (s t : Emitter) (types : List Ir.StructType) (functions : List Ir.Function) : Prop where
  context : t.context = s.context
  strings : Ir.Begins s.builder.strings t.builder.strings
  structs : t.builder.module.structs.toList = s.builder.module.structs.toList ++ types
  globals : ∀ g ∈ s.builder.module.globals, g ∈ t.builder.module.globals
  declarations : ∀ d ∈ s.builder.module.declarations, d ∈ t.builder.module.declarations
  definitions : t.builder.module.definitions.toList =
    s.builder.module.definitions.toList ++ functions
  listed : s.builder.Listed → t.builder.Listed

theorem Emitter.Defines.trans {s t u : Emitter} {types types' : List Ir.StructType}
    {first second : List Ir.Function} (h : s.Defines t types first) (h' : t.Defines u types' second) :
    s.Defines u (types ++ types') (first ++ second) where
  context := h'.context.trans h.context
  strings := h.strings.trans h'.strings
  structs := by rw [h'.structs, h.structs, List.append_assoc]
  globals g hg := h'.globals g (h.globals g hg)
  declarations d hd := h'.declarations d (h.declarations d hd)
  definitions := by rw [h'.definitions, h.definitions, List.append_assoc]
  listed := h'.listed ∘ h.listed

theorem Ir.Builder.Collects.globals_mem {b b' : Ir.Builder} (h : b.Collects b') {g : Ir.Global}
    (hg : g ∈ b.module.globals) : g ∈ b'.module.globals := by
  obtain ⟨texts, -, htexts⟩ := h.globals
  rw [← Array.mem_toList_iff, htexts]
  exact List.mem_append_left _ (Array.mem_toList_iff.mpr hg)

/-- What is built of a function that was opened becomes its definition when the function ends. -/
theorem Emitter.defines_ended {s built : Emitter} {opened : Ir.Builder} {n : Nat}
    (hgrows : opened.Grows n built.builder) (hmodule : opened.module = s.builder.module)
    (hstrings : opened.strings = s.builder.strings) (hcontext : built.context = s.context) :
    s.Defines built.ended [] [built.fn.definition] := by
  have hcollects := hgrows.collects
  constructor
  case context => exact hcontext
  case strings => exact hstrings ▸ hgrows.strings
  case structs =>
    show built.builder.module.structs.toList = _
    rw [hcollects.structs, hmodule, List.append_nil]
  case globals => exact fun g hg => hcollects.globals_mem (hmodule ▸ hg)
  case declarations => exact fun d hd => hcollects.declarations ▸ hmodule ▸ hd
  case definitions =>
    show (built.builder.module.definitions.push built.fn.definition).toList = _
    rw [Array.toList_push, hcollects.definitions, hmodule]
  case listed =>
    intro hlisted
    refine hgrows.listed fun n => ?_
    rw [hmodule, hstrings]
    exact hlisted n

theorem Emitter.Built.isOpen {s reserved built : Emitter} {body : Body}
    (h : s.Built body reserved built) : built.builder.function.isSome = true :=
  (Stage.extends_fn h.grows.toExtends h.slots.isOpen).1

/-- The labels and temporaries of a function of which nothing was built before occur once. -/
theorem Ir.OpenFunction.Adds.occurs_once {f g : OpenFunction} {cells lo hi lo' hi' lo'' hi'' : Nat}
    (h : f.Adds cells lo hi (span lo' hi') (span lo'' hi'') g) (hbody : f.body = #[]) (hslots : f.slots = #[]) :
    (∀ k, g.marked k ≤ 1) ∧ ∀ k, g.assigned k ≤ 1 := by
  have hspan (lo hi k : Nat) : span lo hi k ≤ 1 := by
    unfold span
    split_ifs <;> omega
  refine ⟨fun k => (h.marked k).trans ?_, fun k => (h.assigned k).trans ?_⟩
  · have hnone : f.marked k = 0 := by
      rw [OpenFunction.marked, hbody]
      rfl
    rw [hnone, Nat.zero_add]
    exact hspan _ _ _
  · have hnone : f.assigned k = 0 := by
      rw [OpenFunction.assigned, hbody, hslots]
      rfl
    rw [hnone, Nat.zero_add]
    exact hspan _ _ _

/-- The function of a nested body is defined, and each of its labels and temporaries occurs once. -/
theorem Emit.defines_emitBody {body : Body} (hnested : body.block.Nested []) {s t : Emitter} {r : Unit}
    (h : emitBody body s = .ok r t) : ∃ reserved built, s.Built body reserved built ∧
      s.Defines built.ended [] [built.fn.definition] ∧ t = built.ended := by
  obtain ⟨reserved, built, hreserve, hcode, rfl⟩ := emitBody_eq_ok h
  have hentering : (s.entering body).Reserved [] :=
    ⟨rfl, rfl, rfl, rfl, rfl, rfl, fun i address t hi => by simp [Emitter.entering] at hi⟩
  obtain ⟨hreserved, hcontext, hslots⟩ := reserved_reserveSlots hreserve hentering
  have hgrowing : Growing (· ∈ ([] : List LoopId)) body.block.cells (bodyCode s.context body) := by
    have := growing_emitBlock body.block hnested
    unfold bodyCode
    exact growing_bind inferInstance fun _ => this
  have hgrows := hgrowing.grows hcode
  have hall := hslots.trans hgrows.builder
  obtain ⟨f, hf, hadds⟩ := hall.function _ rfl
  obtain rfl := Emitter.fn_eq hf
  obtain ⟨hmarked, hassigned⟩ := hadds.occurs_once rfl rfl
  exact ⟨reserved, built,
    ⟨hreserve, hreserved, hcontext, hcode, hgrows, hall, hadds.head.1, hmarked, hassigned⟩,
    Emitter.defines_ended hall rfl rfl (hgrows.context.trans hcontext), Emitter.ended_eq (hf ▸ rfl)⟩

/-! ## Executions -/

theorem Ir.OpenFunction.begins_code (f : OpenFunction) : Ir.Begins f.body f.code := by
  unfold code
  split
  · exact .refl _
  · exact .push _ _

section

variable {V : Type} (machine : Machine V) (args : Nat → V)

/-- The function that was emitted for a body, with an activation of the tree of the body. -/
def Emitter.Built.stage {s reserved built : Emitter} {body : Body} (h : s.Built body reserved built)
    (module : Ir.Module) (limit : Nat) : Stage V where
  x := ⟨machine, s.context, body.locals, limit⟩
  lines := built.fn.code
  texts := module.text?
  args := args
  slots := built.fn.slots
  marked_le k := by
    rw [built.fn.countP_code rfl]
    exact h.marked k
  assigned_le k := by
    rw [built.fn.countP_code rfl]
    exact h.assigned k

variable {machine args} {s reserved built : Emitter} {body : Body} {module : Ir.Module} {limit : Nat}

theorem Emitter.Built.within (h : s.Built body reserved built)
    (htexts : ∀ n text, built.builder.strings[n]? = some text → module.text? n = some text) :
    (h.stage machine args module limit).Within built where
  isOpen := h.isOpen
  context := h.grows.context.trans h.context
  lines := built.fn.begins_code
  slots := .refl _
  texts := htexts
  locals i address t hi := by
    rw [h.grows.slots] at hi
    obtain ⟨⟨k, type, haddress, hk⟩, l, hl, htype⟩ := h.slots.slots i address t hi
    refine ⟨⟨k, type, haddress, ?_⟩, l, ?_, htype⟩
    · exact (Stage.extends_fn h.grows.toExtends h.slots.isOpen).2.slots i _ hk
    · rw [← Array.getElem?_toList]
      exact hl

/-- A function begins where its slots hold the addresses of its cells. -/
theorem Emitter.Built.entry (h : s.Built body reserved built) (temps : Nat → V) :
    (h.stage machine args module limit).At reserved body.locals.size
      (entryPoint machine built.fn.slots temps) where
  isOpen := h.slots.isOpen
  context := h.context
  reserved := h.slots.cells
  cells i k type hi := by
    have hslot : built.fn.slots[i]? = some (k, type) := hi
    obtain ⟨hlt, heq⟩ := Array.getElem?_eq_some_iff.mp hslot
    have hfound : built.fn.slots.findIdx? (·.1 = k) = some i := by
      refine Array.findIdx?_eq_some_iff_getElem.mpr ⟨hlt, by simp [heq], fun j hj hsame => ?_⟩
      have hone : built.fn.slots.countP (·.1 = k) ≤ 1 := (Nat.le_add_right _ _).trans (h.assigned k)
      have hplace : i = j := Stage.eq_of_countP_le_one hone hslot
        (Array.getElem?_eq_getElem (hj.trans hlt)) (by simp) hsame
      exact absurd hplace (Nat.ne_of_gt hj)
    show (entryPoint machine built.fn.slots temps).temps k = machine.cell i
    simp only [entryPoint, hfound]
  active := h.slots.active
  control := by rw [h.slots.body]; rfl
  block := by rw [h.slots.block]; rfl
  bounded k hk := by
    rw [h.slots.block] at hk
    cases hk

end

/-- What is seen of code is what is seen of a tree whose loops take at most `limit` rounds. -/
def Executes {V : Type} (code : Nat → Observation V) (limit : Nat) : Observation V → Prop
  | .returned value effects => ∃ n, ∀ m, n ≤ m → code m = .returned value effects
  | .running effects => ∃ n, limit ≤ n ∧ code n = .running effects
  | .stuck _ => False

/-- What is seen of an execution of a body. -/
def Exec.Progress.observation {V : Type} : Progress V (Exit V) → Observation V
  | .done (.returns value) effects => .returned value effects
  | .done _ effects => .stuck effects
  | .cut effects => .running effects

/-- Code does what an execution does that it simulates and that does not run off the end of a body. -/
theorem Stage.executes {V : Type} {g : Stage V} {s t : Emitter} {entry : Point V} {limit m : Nat}
    {run : Progress V (Exit V)}
    (h : g.Outcome s entry limit (fun q exit => g.Exits [] s t m q (g.At t m q) exit) run)
    (hreturns : ∀ effects, run ≠ .done .falls effects) :
    Executes (fun n => g.code.observe n entry) limit run.observation := by
  cases run with
  | cut effects =>
    obtain ⟨n, q, hq, rfl, hlimit⟩ := h
    exact ⟨n, hlimit, hq.observe 0⟩
  | done exit effects =>
    obtain ⟨n, q, hq, rfl, -, hexit⟩ := h
    cases exit with
    | returns value =>
      refine ⟨n + 1, fun m hm => ?_⟩
      obtain ⟨j, rfl⟩ := Nat.exists_eq_add_of_le hm
      show g.code.observe (n + 1 + j) entry = _
      rw [Nat.add_assoc, Nat.add_comm 1 j, hq.observe (j + 1), Code.observe, hexit.2]
    | falls => exact absurd rfl (hreturns _)
    | breaks id => exact absurd hexit.1 List.not_mem_nil
    | continues id => exact absurd hexit.1 List.not_mem_nil

/-- The function that is emitted for a body does what the tree of the body does. -/
theorem Emit.executes_emitBody {body : Body} {s reserved built : Emitter}
    (h : s.Built body reserved built) (htyped : body.Typed s.context) (horderly : body.Orderly)
    {module : Ir.Module}
    (htexts : ∀ n text, built.builder.strings[n]? = some text → module.text? n = some text)
    {V : Type} (machine : Machine V) (args temps : Nat → V) (limit : Nat) :
    Executes (observeFunction module built.fn.definition machine args temps) limit
      (observeBody s.context body machine args limit) := by
  let g : Stage V := h.stage machine args module limit
  let entry := entryPoint machine built.fn.slots temps
  have hrun : g.Simulates reserved entry (bodyCode s.context body) (do
      g.x.storeParams g.args body.params.zipIdx
      g.x.execBlock body.locals.size body.block) fun t q _ exit =>
        g.Exits [] reserved t (body.locals.size + body.block.cells) q
          (g.At t (body.locals.size + body.block.cells) q) exit := by
    have hgrow := growing_emitBlock body.block horderly.nested
    have hat : g.At reserved body.locals.size entry := h.entry temps
    refine .chain inferInstance (fun _ => hgrow.extending)
      hat.isOpen (Stage.simulates_storeParams _ hat) fun _ t q _ ht _ hat => ?_
    refine (Stage.simulates_emitBlock body.block htyped.block horderly.nested horderly.live hat).mono ?_
    intro _ u q' exit _ hexits
    exact hexits.over (fun _ => id) id fun id hid _ => absurd hid List.not_mem_nil
  refine g.executes (hrun h.code (h.within htexts)) fun effects hfalls => ?_
  obtain ⟨u, mid, -, hblock⟩ := Action.bind_eq_done hfalls
  exact horderly.returns (g.x.finds_execBlock body.block hblock)

end OwnLang
