import OwnLang.Proofs.Check.Pruned
import OwnLang.Proofs.Emit.FlowBody
import OwnLang.Proofs.Emit.Module

/-!
# Emitted modules are well formed

The function of a body is emitted from a site in its entry to a site behind its code, and starts the blocks of all the
labels that are taken in between. Labels are numbered throughout a module. So the functions of a module that was
compiled are graphs of blocks in static single assignment form, and its labels are told apart (`compile_wellFormed`).
-/

namespace OwnLang

open Ir (Build Builder Label OpenFunction Operand)
open Emit (build build_apply)

namespace Site

variable {w : Site}

/-- Emission stands in the entry of a function of which nothing was emitted. -/
def opening (s : Emitter) {name : String} {returns : Ir.Ty} {params : List Ir.Ty}
    (hf : s.builder.function = some { name, returns, params }) (hslots : s.slots = #[]) (hloops : s.loops = []) :
    Site where
  state := s
  function := { name, returns, params }
  isOpen := hf
  start := s.builder.labels
  start_le := Nat.le_refl _
  ports _ := .plain
  planned := OpenFunction.planned_empty rfl rfl rfl rfl _ _
  slots a ha := by
    rw [hslots] at ha
    exact absurd ha (Array.not_mem_empty a)
  loops x hx := by
    rw [hloops] at hx
    exact absurd hx List.not_mem_nil

theorem evaluates_addSlot {address : Operand} (h : w.IsSlot address) (t : Ty) :
    w.Evaluates (modify fun s => { s with slots := s.slots.push (address, t) }) fun _ _ => True := by
  intro hopen
  have hslots : ∀ a ∈ w.state.slots.push (address, t), w.IsSlot a.1 := by
    intro a ha
    rcases Array.mem_push.mp ha with ha | rfl
    · exact w.slots a ha
    · exact h
  let w' := w.restating { w.state with slots := w.state.slots.push (address, t) } rfl rfl hslots w.loops
  have hrun : (modify fun s => { s with slots := s.slots.push (address, t) } : Emit Unit) w.state =
      .ok ⟨⟩ w'.state := rfl
  exact .of_eq hrun leads_restating rfl ⟨keeps_restating hopen, trivial⟩

theorem evaluates_reserveSlots : ∀ (locals : List Local) {w : Site},
    w.Evaluates (Emit.reserveSlots locals) fun _ _ => True
  | [], w => .pure trivial
  | l :: rest, w => by
    unfold Emit.reserveSlots
    refine .reading fun type _ => (evaluates_newSlot type).bind fun address w₁ _ haddress => ?_
    exact .bind (evaluates_addSlot haddress l.type) fun _ w₂ _ _ => evaluates_reserveSlots rest

theorem evaluates_storeParams : ∀ (params : List (LocalId × Operand)) {w : Site},
    (∀ x ∈ params, w.Knows x.2.ref) → w.Evaluates (Emit.storeParams params) fun _ _ => True
  | [], w, _ => .pure trivial
  | (id, value) :: rest, w, h => by
    obtain ⟨hvalue, hrest⟩ := List.forall_mem_cons.mp h
    unfold Emit.storeParams
    refine (evaluates_slot id).bind fun (address, t) w₁ h₁ haddress => ?_
    refine .bind (evaluates_store (hvalue.keeps h₁) haddress) fun _ w₂ h₂ _ => ?_
    exact evaluates_storeParams rest fun x hx => ((hrest x hx).keeps h₁).keeps h₂

end Site

/-! ## Functions -/

/-- Functions are well formed, and their labels, which are told apart, have the numbers behind `lo` up to `hi`. -/
structure Ir.FormedWithin (lo hi : Nat) (functions : List Ir.Function) : Prop where
  labels : lo ≤ hi
  wellFormed : ∀ f ∈ functions, f.WellFormed
  within : ∀ k ∈ functions.flatMap Function.numbers, lo < k ∧ k ≤ hi
  distinct : (functions.flatMap Function.numbers).Nodup

theorem Ir.FormedWithin.nil (k : Nat) : FormedWithin k k [] :=
  ⟨Nat.le_refl _, List.forall_mem_nil _, List.forall_mem_nil _, List.nodup_nil⟩

theorem Ir.FormedWithin.append {lo mid hi : Nat} {first second : List Ir.Function} (h : FormedWithin lo mid first)
    (h' : FormedWithin mid hi second) : FormedWithin lo hi (first ++ second) where
  labels := h.labels.trans h'.labels
  wellFormed := List.forall_mem_append.mpr ⟨h.wellFormed, h'.wellFormed⟩
  within := by
    rw [List.flatMap_append]
    refine List.forall_mem_append.mpr ⟨fun k hk => ?_, fun k hk => ?_⟩
    · exact ⟨(h.within k hk).1, (h.within k hk).2.trans h'.labels⟩
    · exact ⟨Nat.lt_of_le_of_lt h.labels (h'.within k hk).1, (h'.within k hk).2⟩
  distinct := by
    rw [List.flatMap_append]
    refine List.Nodup.append h.distinct h'.distinct fun k hk hk' => ?_
    exact Nat.not_lt_of_le (h.within k hk).2 (h'.within k hk').1

/-- A function is well formed that is emitted from its entry and whose labels and temporaries occur once. -/
theorem Site.formed {w : Site} (hentry : w.labels = w.start) {e : Emit Unit} {post : Unit → Site → Prop}
    (hflows : w.Flows [] e post) {built : Emitter} (hrun : e w.state = .ok ⟨⟩ built) {f : OpenFunction}
    (hf : built.builder.function = some f) (hmarked : ∀ k, f.marked k ≤ 1) (hassigned : ∀ k, f.assigned k ≤ 1) :
    Ir.FormedWithin w.start built.builder.labels [f.definition] := by
  obtain ⟨w', rfl, hleads, hplaced, -⟩ := hflows hrun
  obtain rfl : w'.function = f := Option.some.inj (w'.isOpen.symm.trans hf)
  have hall : ∀ k, w'.start < k → k ≤ w'.labels → .numbered k ∈ w'.function.placed := by
    intro k hlo hhi
    rw [hleads.start, ← hentry] at hlo
    exact hplaced k (.inr ⟨hlo, hhi⟩)
  obtain ⟨hdistinct, hwithin⟩ := w'.planned.numbers hmarked
  rw [hleads.start] at hwithin
  refine ⟨hentry.symm.trans_le hleads.labels, List.forall_mem_singleton.mpr ?_, ?_, ?_⟩
  · exact w'.planned.wellFormed hall hmarked hassigned
  · rwa [List.flatMap_singleton]
  · rwa [List.flatMap_singleton]

namespace Emit

variable {s t : Emitter}

/-- The function that is emitted for a body. -/
theorem formed_emitBody {body : Body} {reserved built : Emitter} (h : s.Built body reserved built)
    (hpruned : body.block.Pruned) :
    Ir.FormedWithin s.builder.labels built.builder.labels [built.fn.definition] := by
  let w := Site.opening (s.entering body) rfl rfl rfl
  have hparams : ∀ x ∈ body.params.zipIdx.map fun x => (x.1,
      (⟨s.context.irType (body.locals[x.1.index]?.getD default).type, .param x.2⟩ : Operand)),
      w.Knows x.2.ref := by
    refine List.forall_mem_map.mpr fun x hx => ?_
    show x.2 < (body.params.map _).length
    rw [List.length_map]
    simpa using List.snd_lt_of_mem_zipIdx hx
  have hflows : w.Flows [] (do reserveSlots body.locals.toList; bodyCode s.context body) fun _ _ => True := by
    refine .evaluating (Site.evaluates_reserveSlots _) rfl fun _ w₁ h₁ _ => ?_
    have hstored := Site.evaluates_storeParams _ fun x hx => (hparams x hx).keeps h₁
    refine .evaluating hstored h₁.active fun _ w₂ h₂ _ => ?_
    exact (Site.flows_emitBlock body.block hpruned h₂.active).mono (fun _ => id) fun _ _ _ _ => trivial
  have hrun : (do reserveSlots body.locals.toList; bodyCode s.context body) w.state = .ok ⟨⟩ built :=
    Run.bind_eq_ok.mpr ⟨⟨⟩, reserved, h.reserve, h.code⟩
  obtain ⟨f, hf⟩ := Option.isSome_iff_exists.mp h.isOpen
  obtain rfl := Emitter.fn_eq hf
  exact Site.formed rfl hflows hrun hf h.marked h.assigned

/-- The function `main`. -/
theorem formed_main (s : Emitter) (returns : Ir.Ty) (symbol : String) :
    Ir.FormedWithin s.builder.labels (mainBuilt s returns (.symbol symbol)).builder.labels
      [(mainBuilt s returns (.symbol symbol)).fn.definition] := by
  let opened : Emitter := { s with builder := mainOpened s.builder, slots := #[], loops := [] }
  let built : Emitter := { opened with builder := (mainBuilt s returns (.symbol symbol)).builder }
  let w := Site.opening opened rfl rfl rfl
  have hflows : w.Flows [] (do
      let status ← build (Build.call returns (.symbol symbol) [] none)
      build (Build.ret (some (if status.type.isVoid then ⟨.int 32, .int 0⟩ else status))))
      fun _ w' => w'.function.terminated = true := by
    have hcall : w.Evaluates (build (Build.call returns (.symbol symbol) [] none)) fun a w' => w'.Knows a.ref :=
      Site.evaluates_call returns none trivial (List.forall_mem_nil _)
    refine .evaluating hcall rfl fun status w₁ h₁ hstatus => ?_
    refine Site.flows_terminate (fun r hr => ?_) (List.forall_mem_nil _) h₁.active
    obtain ⟨a, ha, rfl⟩ := List.mem_map.mp hr
    obtain rfl := Option.some.inj (Option.eq_some_of_filter_eq_some (Option.mem_toList.mp ha))
    split
    · trivial
    · exact hstatus
  have hrun : (do
      let status ← build (Build.call returns (.symbol symbol) [] none)
      build (Build.ret (some (if status.type.isVoid then ⟨.int 32, .int 0⟩ else status)))) w.state =
      .ok ⟨⟩ built := rfl
  obtain ⟨f, hf, hadds⟩ := (grows_mainCode returns (.symbol symbol) (mainOpened s.builder)).function _ rfl
  obtain ⟨hmarked, hassigned⟩ := hadds.occurs_once rfl rfl
  obtain rfl : f = (mainBuilt s returns (.symbol symbol)).fn :=
    Option.some.inj (hf.symm.trans (mainBuilt_isOpen s returns (.symbol symbol)))
  exact Site.formed rfl hflows hrun hf hmarked hassigned

/-! ## Modules -/

theorem formed_emitBodies {bodies : List Body} (hnested : ∀ body ∈ bodies, body.block.Nested [])
    (hpruned : ∀ body ∈ bodies, body.block.Pruned) {r : PUnit} (h : (forIn bodies PUnit.unit fun body _ => do
      emitBody body
      pure (ForInStep.yield PUnit.unit)) s = .ok r t) :
    ∃ functions, s.Defines t [] functions ∧ Ir.FormedWithin s.builder.labels t.builder.labels functions := by
  induction bodies generalizing s with
  | nil =>
    cases h
    exact ⟨[], defines_refl _, .nil _⟩
  | cons body rest ih =>
    rw [List.forIn_cons] at h
    obtain ⟨step, u, hstep, hrest⟩ := Run.bind_eq_ok.mp h
    obtain ⟨⟨⟩, u', hbody, hyield⟩ := Run.bind_eq_ok.mp hstep
    cases hyield
    obtain ⟨reserved, built, hbuilt, hdefines, rfl⟩ :=
      defines_emitBody (hnested body List.mem_cons_self) hbody
    have hformed := formed_emitBody hbuilt (hpruned body List.mem_cons_self)
    obtain ⟨functions, hmore, hall⟩ := ih (fun b hb => hnested b (List.mem_cons_of_mem _ hb))
      (fun b hb => hpruned b (List.mem_cons_of_mem _ hb)) hrest
    exact ⟨_, hdefines.trans hmore, hformed.append hall⟩

/-- The module of a checked program is well formed. -/
theorem wellFormed_emitModule {c : Context} (hnested : ∀ body ∈ c.bodies, body.block.Nested [])
    (hpruned : ∀ body ∈ c.bodies, body.block.Pruned) {m : Ir.Module} (h : emitModule c = .ok m) : m.WellFormed := by
  obtain ⟨t, hprogram, rfl⟩ := emitModule_eq_ok h
  obtain ⟨s₁, s₂, s₃, s₄, hruntime, hstructs, hglobals, hbodies, hentry⟩ := emitProgram_eq_ok hprogram
  have hquiet : Emitter.Defines { context := c } s₃ _ [] :=
    ((Quiet.defines hruntime).trans (defines_emitStructs hstructs)).trans (Quiet.defines hglobals)
  obtain ⟨functions, hdefines, hformed⟩ := formed_emitBodies
    (fun body hbody => hnested body (Array.mem_toList_iff.mp hbody))
    (fun body hbody => hpruned body (Array.mem_toList_iff.mp hbody)) hbodies
  obtain ⟨last, hlast, hformed'⟩ : ∃ last, s₄.Defines t [] last ∧
      Ir.FormedWithin s₄.builder.labels t.builder.labels last := by
    rcases hentry with ⟨-, rfl⟩ | ⟨entry, -, hentry⟩
    · exact ⟨[], defines_refl _, .nil _⟩
    · obtain rfl := emitEntry_eq_ok hentry
      exact ⟨_, defines_main _ _ _, formed_main _ _ _⟩
  have hall := hformed.append hformed'
  have hdefinitions : t.builder.module.definitions.toList = functions ++ last :=
    ((hquiet.trans hdefines).trans hlast).definitions
  refine ⟨fun f hf => hall.wellFormed f ?_, ?_⟩
  · rw [← hdefinitions]
    exact Array.mem_toList_iff.mpr hf
  · rw [hdefinitions]
    exact hall.distinct

end Emit

theorem checkProgram_eq_ok {options : Options} {files : List SourceFile} {c : Context}
    (h : checkProgram options files = .ok c) : ∃ modules, parseProgram options files = .ok modules ∧
      Check.checkModules modules { options } = .ok ⟨⟩ c := by
  unfold checkProgram at h
  cases hparsed : parseProgram options files with
  | error why =>
    rw [hparsed] at h
    cases h
  | ok modules =>
    rw [hparsed] at h
    have hfinal : (Check.checkModules modules { options }).finalState = .ok c := h
    refine ⟨modules, rfl, ?_⟩
    cases hmodules : Check.checkModules modules { options } with
    | ok _ d =>
      rw [hmodules] at hfinal
      cases hfinal
      rfl
    | error | stopped =>
      rw [hmodules] at hfinal
      cases hfinal

/-- A program that was checked is one of a session. -/
theorem Session.reachable_checkProgram {options : Options} {files : List SourceFile} {c : Context}
    (h : checkProgram options files = .ok c) : Reachable c := by
  obtain ⟨modules, -, hrun⟩ := checkProgram_eq_ok h
  exact ⟨options, .single (.modules modules (Run.ends_of_ok hrun))⟩

theorem compile_eq_ok {options : Options} {files : List SourceFile} {compiled : Compilation}
    (h : compile options files = .ok compiled) :
    ∃ c, checkProgram options files = .ok c ∧ emitModule c = .ok compiled.module := by
  unfold compile at h
  cases hchecked : checkProgram options files with
  | error why =>
    rw [hchecked] at h
    cases h
  | ok c =>
    rw [hchecked] at h
    refine ⟨c, rfl, ?_⟩
    cases hfatal : fatalWarning? c with
    | some warning =>
      simp only [bind, Except.bind, hfatal] at h
      cases h
    | none =>
      cases hmodule : emitModule c with
      | error why =>
        simp only [bind, Except.bind, hfatal, hmodule] at h
        cases h
      | ok m =>
        simp only [bind, Except.bind, hfatal, hmodule] at h
        cases h
        rfl

/-- Emitted functions are graphs of blocks in static single assignment form. Whatever program is compiled, the blocks
of each function that its module defines have different names, end with their only terminators and jump to each other.
Each temporary is assigned once, as the address of a slot that the entry reserves or by a line, and ahead of what reads
it on every way from the entry. A `phi` merges the blocks that jump to its own. -/
theorem compile_wellFormed {options : Options} {files : List SourceFile} {compiled : Compilation}
    (h : compile options files = .ok compiled) : compiled.module.WellFormed := by
  obtain ⟨c, hchecked, hmodule⟩ := compile_eq_ok h
  have hc := Session.reachable_checkProgram hchecked
  exact Emit.wellFormed_emitModule (fun body hbody => (hc.orderly body hbody).nested) hc.pruned hmodule

/-- Both operands are evaluated in the loop's test, and the body jumps out of the loop. -/
def escapingFiles : List SourceFile :=
  [⟨"escape.own", "package escape; fn f(a: bool, b: bool) \x7b while (a && b) \x7b break; \x7d \x7d"⟩]

theorem compile_wellFormed_escaping : ∃ compiled,
    compile { includeStd := false, requireEntry := false } escapingFiles = .ok compiled ∧
      compiled.module.definitions.size = 1 ∧ compiled.module.WellFormed := by
  have hrun : ((compile { includeStd := false, requireEntry := false } escapingFiles).toOption.map
      (·.module.definitions.size)) = some 1 := by decide +kernel
  cases hcompiled : compile { includeStd := false, requireEntry := false } escapingFiles with
  | error why =>
    rw [hcompiled] at hrun
    cases hrun
  | ok compiled =>
    rw [hcompiled] at hrun
    exact ⟨compiled, rfl, Option.some.inj hrun, compile_wellFormed hcompiled⟩

end OwnLang
