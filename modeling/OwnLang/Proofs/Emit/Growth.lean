import OwnLang.Proofs.Core.Nesting
import OwnLang.Proofs.Emit.Build
import OwnLang.Proofs.Exec.Tree
import OwnLang.Proofs.Run

/-!
# What emission adds

Every part of emission keeps what was emitted before it (`Extending`). One that takes the labels that
it places grows the function by a number of slots that its tree alone decides (`Growing`), and leaves
the labels of the loops around it alone.

Both are classes: what a sequence of steps adds is found from the steps.
-/

namespace OwnLang

open Ir (Builder Operand Build span once)

/-- Nothing that was emitted is taken back. -/
structure Emitter.Extends (s t : Emitter) : Prop where
  context : t.context = s.context
  slots : t.slots = s.slots
  builder : s.builder.Extends t.builder

/-- What is new in the state of emission. The labels of the loops that `keep` names stay. -/
structure Emitter.Adds (keep : LoopId → Prop) (cells lo : Nat) (marks : Nat → Nat) (s t : Emitter) :
    Prop where
  context : t.context = s.context
  slots : t.slots = s.slots
  loops : ∀ id, keep id → t.loops.lookup id = s.loops.lookup id
  builder : s.builder.Adds cells lo marks t.builder

/-- What a part of emission adds that takes the labels that it places. -/
def Emitter.Grows (keep : LoopId → Prop) (cells : Nat) (s t : Emitter) : Prop :=
  s.Adds keep cells s.builder.labels (span s.builder.labels t.builder.labels) t

namespace Emitter

variable {keep : LoopId → Prop} {s t u : Emitter} {n n' lo : Nat} {marks marks' : Nat → Nat}

theorem Extends.refl (s : Emitter) : s.Extends s := ⟨rfl, rfl, .refl _⟩

theorem Extends.trans (h : s.Extends t) (h' : t.Extends u) : s.Extends u :=
  ⟨h'.context.trans h.context, h'.slots.trans h.slots, h.builder.trans h'.builder⟩

theorem Adds.toExtends (h : s.Adds keep n lo marks t) : s.Extends t :=
  ⟨h.context, h.slots, h.builder.toExtends⟩

theorem Adds.refl (s : Emitter) (keep : LoopId → Prop) (lo : Nat) : s.Adds keep 0 lo (fun _ => 0) s :=
  ⟨rfl, rfl, fun _ _ => rfl, .refl _ lo⟩

theorem Adds.trans (h : s.Adds keep n lo marks t) (h' : t.Adds keep n' lo marks' u) :
    s.Adds keep (n + n') lo (fun k => marks k + marks' k) u where
  context := h'.context.trans h.context
  slots := h'.slots.trans h.slots
  loops id hid := (h'.loops id hid).trans (h.loops id hid)
  builder := h.builder.trans h'.builder

theorem Adds.mono {lo' : Nat} (h : s.Adds keep n lo marks t) (hlo : lo' ≤ lo)
    (hmarks : ∀ k, marks k ≤ marks' k) : s.Adds keep n lo' marks' t :=
  ⟨h.context, h.slots, h.loops, h.builder.mono hlo hmarks⟩

theorem Grows.refl (s : Emitter) (keep : LoopId → Prop) : s.Grows keep 0 s :=
  ⟨rfl, rfl, fun _ _ => rfl, Builder.Grows.refl _⟩

theorem Grows.trans (h : s.Grows keep n t) (h' : t.Grows keep n' u) : s.Grows keep (n + n') u where
  context := h'.context.trans h.context
  slots := h'.slots.trans h.slots
  loops id hid := (h'.loops id hid).trans (h.loops id hid)
  builder := Builder.Grows.trans h.builder h'.builder

end Emitter

namespace Emit

variable {α β : Type} {keep : LoopId → Prop} {n k : Nat} {e : Emit α} {f : α → Emit β}

/-- What was emitted ahead of a part of emission stays. -/
class Extending (e : Emit α) : Prop where
  kept : ∀ {s a t}, e s = .ok a t → s.Extends t

/-- A part of emission reserves `n` slots and takes the labels that it places. -/
class Growing (keep : LoopId → Prop) (n : outParam Nat) (e : Emit α) : Prop where
  grows : ∀ {s a t}, e s = .ok a t → s.Grows keep n t

theorem Growing.cast (h : Growing keep n e) (hn : n = k) : Growing keep k e := hn ▸ h

theorem Growing.extending (h : Growing keep n e) : Extending e := ⟨fun h' => (h.grows h').toExtends⟩

instance (priority := low) extending_of_growing [h : Growing (fun _ => False) n e] : Extending e :=
  h.extending

section

instance (a : α) : Growing keep 0 (pure a : Emit α) := ⟨fun h => by cases h; exact .refl _ _⟩

instance : Growing keep 0 (get : Emit Emitter) := ⟨fun h => by cases h; exact .refl _ _⟩

instance (cause : Cause) (span : Span) : Growing keep 0 (Run.reject cause span : Emit α) :=
  ⟨fun h => by cases h⟩

instance (why : Stop) : Growing keep 0 (Run.stop why : Emit α) := ⟨fun h => by cases h⟩

instance [he : Growing keep n e] [hf : ∀ a, Growing keep k (f a)] :
    Growing keep (n + k) (e >>= f) where
  grows h := by
    obtain ⟨a, s, hx, hy⟩ := Run.bind_eq_ok.mp h
    exact (he.grows hx).trans ((hf a).grows hy)

instance {c : Prop} [Decidable c] {e' : Emit α} [he : Growing keep n e] [he' : Growing keep n e'] :
    Growing keep n (if c then e else e') where
  grows h := by
    split at h
    · exact he.grows h
    · exact he'.grows h

instance [he : Extending e] [hf : ∀ a, Extending (f a)] : Extending (e >>= f) where
  kept h := by
    obtain ⟨a, s, hx, hy⟩ := Run.bind_eq_ok.mp h
    exact (he.kept hx).trans ((hf a).kept hy)

instance {c : Prop} [Decidable c] {e' : Emit α} [he : Extending e] [he' : Extending e'] :
    Extending (if c then e else e') where
  kept h := by
    split at h
    · exact he.kept h
    · exact he'.kept h

instance extending_forIn {γ : Type} (xs : List γ) {f : γ → PUnit → Emit (ForInStep PUnit)}
    [hf : ∀ i, Extending (f i ⟨⟩)] : Extending (forIn xs ⟨⟩ f) := by
  induction xs with
  | nil => exact inferInstanceAs (Extending (pure _))
  | cons i rest ih =>
    rw [List.forIn_cons]
    refine ⟨fun h => ?_⟩
    obtain ⟨a, s, hx, hy⟩ := Run.bind_eq_ok.mp h
    refine ((hf i).kept hx).trans ?_
    cases a with
    | done a =>
      cases hy
      exact .refl _
    | yield a => exact ih.kept hy

instance extending_mapM {γ : Type} (xs : List γ) {f : γ → Emit β} [hf : ∀ i, Extending (f i)] :
    Extending (xs.mapM f) := by
  induction xs with
  | nil =>
    rw [List.mapM_nil]
    infer_instance
  | cons i rest ih =>
    rw [List.mapM_cons]
    infer_instance

theorem build_apply (step : Build α) (s : Emitter) :
    build step s = .ok (step s.builder).1 { s with builder := (step s.builder).2 } := rfl

theorem growing_build {step : Build α} (h : ∀ b : Builder, b.Grows n (step b).2) :
    Growing keep n (build step) where
  grows h' := by
    cases h'
    exact ⟨rfl, rfl, fun _ _ => rfl, h _⟩

instance (type : Ir.Ty) (instr : Ir.Instr) : Growing keep 0 (build (Build.result type instr)) :=
  growing_build fun b => Build.grows_result b type instr

instance (instr : Ir.Instr) : Growing keep 0 (build (Build.effect instr)) :=
  growing_build fun b => Build.grows_effect b instr

instance (type : Ir.Ty) (address : Operand) : Growing keep 0 (build (Build.load type address)) :=
  growing_build fun b => Build.grows_result b _ _

instance (value address : Operand) : Growing keep 0 (build (Build.store value address)) :=
  growing_build fun b => Build.grows_effect b _

instance (returns : Ir.Ty) (callee : Ir.Ref) (args : List Operand) (signature : Option Ir.Ty) :
    Growing keep 0 (build (Build.call returns callee args signature)) :=
  growing_build fun b => Build.grows_call b _ _ _ _

instance (text : String) : Growing keep 0 (build (Build.string text)) :=
  growing_build fun b => Build.grows_string b text

instance (type : Ir.Ty) : Growing keep 1 (build (Build.slot type)) :=
  growing_build fun b => Build.grows_slot b type

instance : Growing keep 0 (build Build.newLabel) :=
  growing_build fun b => (Build.adds_newLabel b _).grows (Nat.le_refl _)

instance (target : Ir.Label) : Growing keep 0 (build (Build.br target)) :=
  growing_build fun b => Build.grows_terminate b _

instance (test : Operand) (yes no : Ir.Label) : Growing keep 0 (build (Build.condBr test yes no)) :=
  growing_build fun b => Build.grows_terminate b _

instance (value : Option Operand) : Growing keep 0 (build (Build.ret value)) :=
  growing_build fun b => Build.grows_terminate b _

instance : Growing keep 0 context := by
  unfold context
  exact .cast inferInstance (Nat.zero_add 0)

instance : Growing keep 0 isTerminated := by
  unfold isTerminated
  exact .cast inferInstance (Nat.zero_add 0)

instance (t : Ty) : Growing keep 0 (irType t) := by
  unfold irType
  exact .cast inferInstance (Nat.zero_add 0)

instance (id : GlobalId) : Growing keep 0 (symbolOf id) := by
  unfold symbolOf
  exact .cast inferInstance (Nat.zero_add 0)

/-- A part that begins with a step that reserves nothing. -/
theorem growing_bind (he : Growing keep 0 e) (hf : ∀ a, Growing keep k (f a)) :
    Growing keep k (e >>= f) :=
  .cast inferInstance (Nat.zero_add k)

instance (id : LocalId) : Growing keep 0 (slot id) := by
  unfold slot
  refine growing_bind inferInstance fun s => ?_
  split <;> infer_instance

instance (id : LoopId) : Growing keep 0 (loopLabels id) := by
  unfold loopLabels
  refine growing_bind inferInstance fun s => ?_
  split <;> infer_instance

instance (t : Ty) : Growing keep 0 (byteSize t) := by
  unfold byteSize
  refine growing_bind inferInstance fun c => ?_
  split <;> infer_instance

instance (value : Const) (t : Ty) : Growing keep 0 (constantOperand value t) := by
  unfold constantOperand
  cases value with
  | int n => exact .cast inferInstance (Nat.zero_add 0)
  | bool b => exact inferInstance
  | str text => exact inferInstance

/-! ## Allocating and releasing -/

instance (size : Operand) : Growing keep 0 (allocate size) := by
  unfold allocate
  infer_instance

instance (value : Operand) (size : Nat) : Growing keep 0 (heapCopy value size) := by
  unfold heapCopy
  exact .cast inferInstance rfl

instance (type : Ir.Ty) (value : Operand) (index : Nat) :
    Growing keep 0 (extract type value index) := by
  unfold extract
  infer_instance

/-- A loop whose rounds reserve nothing. -/
theorem growing_forIn {γ : Type} (xs : List γ) {f : γ → PUnit → Emit (ForInStep PUnit)}
    (h : ∀ i, Growing keep 0 (f i ⟨⟩)) : Growing keep 0 (forIn xs ⟨⟩ f) := by
  induction xs with
  | nil => exact inferInstanceAs (Growing keep 0 (pure _))
  | cons i rest ih =>
    rw [List.forIn_cons]
    refine growing_bind (h i) fun step => ?_
    cases step with
    | done a => exact inferInstance
    | yield a => exact ih

/-- A list of results whose parts reserve nothing. -/
theorem growing_mapM {γ : Type} (xs : List γ) {f : γ → Emit β} (h : ∀ i, Growing keep 0 (f i)) :
    Growing keep 0 (xs.mapM f) := by
  induction xs with
  | nil => 
    rw [List.mapM_nil]
    infer_instance
  | cons i rest ih =>
    rw [List.mapM_cons]
    exact growing_bind (h i) fun b => growing_bind ih fun bs => inferInstance

theorem growing_release : ∀ (value : Operand) (t : Ty), Growing keep 0 (release value t)
  | value, .mk (.owner ..) _ => by
    unfold release
    exact .cast inferInstance rfl
  | value, .mk (.array element _ (some size)) _ => by
    unfold release
    have hrest (part : Operand) := growing_release part element
    split
    · refine growing_bind inferInstance fun type => growing_bind (growing_forIn _ fun i => ?_)
        fun _ => inferInstance
      exact growing_bind inferInstance fun part => growing_bind (hrest part) fun _ => inferInstance
    · infer_instance
  | value, .mk (.int _) _ | value, .mk .bool _ | value, .mk .void _ | value, .mk (.func ..) _
  | value, .mk (.shared ..) _ | value, .mk (.array _ _ none) _ | value, .mk (.struct ..) _ => by
    unfold release
    infer_instance

instance (value : Operand) (t : Ty) : Growing keep 0 (release value t) := growing_release value t

instance growing_dropLocals : (ids : List LocalId) → Growing keep 0 (dropLocals ids)
  | [] => inferInstanceAs (Growing keep 0 (pure ()))
  | id :: rest => by
    have := growing_dropLocals rest
    unfold dropLocals
    exact .cast inferInstance rfl

/-! ## Formatted output -/

instance (value : Operand) : Growing keep 0 (boolText value) := by
  unfold boolText
  exact .cast inferInstance rfl

instance (value : Operand) (t : Ty) (span : Span) : Growing keep 0 (renderPointer value t span) := by
  unfold renderPointer
  refine growing_bind inferInstance fun c => ?_
  split
  · infer_instance
  · exact .cast inferInstance rfl

section

variable {renderStruct : StructId → Operand → Emit Rendering} (span : Span)
  (hstruct : ∀ id value, Growing keep 0 (renderStruct id value))

include hstruct

theorem growing_renderGiven : ∀ (value : Operand) (t : Ty),
    Growing keep 0 (renderGiven renderStruct span value t)
  | value, .mk (.int .w64) _ | value, .mk (.int .w32) _ => inferInstanceAs (Growing keep 0 (pure _))
  | value, .mk (.int .w16) _ | value, .mk (.int .w8) _ | value, .mk .bool _ => by
    unfold renderGiven
    exact .cast inferInstance rfl
  | value, .mk (.array element _ (some size)) _ => by
    unfold renderGiven
    have hrest (part : Operand) := growing_renderGiven part element
    refine growing_bind inferInstance fun type => growing_bind (growing_mapM _ fun i => ?_)
      fun parts => inferInstance
    exact growing_bind inferInstance fun part => hrest part
  | value, .mk (.struct id _) _ => hstruct id value
  | value, .mk .void _ | value, .mk (.func ..) _ | value, .mk (.shared ..) _
  | value, .mk (.owner ..) _ | value, .mk (.array _ _ none) _ => by
    unfold renderGiven
    infer_instance

end

theorem growing_renderField {renderTy : Operand → Ty → Emit Rendering}
    (h : ∀ part type, Growing keep 0 (renderTy part type)) (value : Operand) (field : Field)
    (index : Nat) : Growing keep 0 (renderField renderTy value field index) := by
  have := h
  unfold renderField
  exact .cast inferInstance rfl

theorem growing_renderStructTo (span : Span) (n : Nat) (id : StructId) (value : Operand) :
    Growing keep 0 (renderStructTo span n id value) := by
  induction n generalizing id value with
  | zero => exact inferInstanceAs (Growing keep 0 (Run.stop _))
  | succ n ih =>
    unfold renderStructTo
    exact growing_bind inferInstance fun c => growing_bind (growing_mapM _ fun (field, index) =>
      growing_renderField (growing_renderGiven span ih) value field index) fun parts => inferInstance

instance (value : Operand) (t : Ty) (span : Span) : Growing keep 0 (render value t span) := by
  unfold render
  exact growing_bind inferInstance fun c =>
    growing_renderGiven span (growing_renderStructTo span _) value t

instance (rendering : Rendering) : Growing keep 0 (callPrintf rendering) := by
  unfold callPrintf
  exact .cast inferInstance rfl

instance (rendering : Rendering) (newline : Bool) (owned : List (Operand × Ty)) :
    Growing keep 0 (printValues rendering newline owned) := by
  unfold printValues
  refine growing_bind inferInstance fun _ => growing_bind (growing_forIn _ fun pair => ?_)
    fun _ => inferInstance
  exact .cast inferInstance rfl

end

/-! ## Labels that were taken before -/

/-- A part of emission that takes the labels that it places but for those that it is owed. -/
def Places (keep : LoopId → Prop) (n : Nat) (owed : Nat → Nat) (e : Emit α) : Prop :=
  ∀ ⦃s a t lo⦄, e s = .ok a t → lo ≤ s.builder.labels →
    (∀ k, owed k ≠ 0 → lo < k ∧ k ≤ s.builder.labels) →
    s.Adds keep n lo (fun k => owed k + span s.builder.labels t.builder.labels k) t

namespace Places

variable {owed owed' : Nat → Nat}

theorem growing (h : Places keep n (fun _ => 0) e) : Growing keep n e where
  grows he := (h he (Nat.le_refl _) fun _ hk => absurd rfl hk).mono (Nat.le_refl _) fun k => by
    rw [Nat.zero_add]

theorem of_growing (h : Growing keep n e) : Places keep n (fun _ => 0) e := fun s a t lo he hlo _ =>
  (h.grows he).mono hlo fun k => by rw [Nat.zero_add]

theorem congr (owed : Nat → Nat) (h : Places keep n owed e) (howed : ∀ k, owed k = owed' k) :
    Places keep n owed' e := funext howed ▸ h

/-- A part that is owed nothing, and then one that is. -/
theorem andThen {m : Nat} (he : Growing keep n e) (hf : ∀ a, Places keep k owed (f a))
    (hm : n + k = m) : Places keep m owed (e >>= f) := by
  subst hm
  intro s b u lo h hlo howed
  obtain ⟨a, t, hx, hy⟩ := Run.bind_eq_ok.mp h
  have hst := he.grows hx
  have hlabels : s.builder.labels ≤ t.builder.labels := hst.builder.labels
  have htu := hf a hy (hlo.trans hlabels) fun k hk => ⟨(howed k hk).1, (howed k hk).2.trans hlabels⟩
  refine ((hst.mono hlo fun _ => Nat.le_refl _).trans htu).mono (Nat.le_refl _) fun k => ?_
  have := Builder.span_add_le hlabels htu.builder.labels k
  omega

/-- A part that is owed nothing and reserves nothing, and then one that is owed labels. -/
theorem seq (he : Growing keep 0 e) (hf : ∀ a, Places keep k owed (f a)) :
    Places keep k owed (e >>= f) := andThen he hf (Nat.zero_add k)

/-- A label is taken for what follows. -/
theorem newLabel {f : Ir.Label → Emit β}
    (hf : ∀ i, Places keep k (fun k => once i k + owed k) (f (.numbered i))) :
    Places keep k owed (build Build.newLabel >>= f) := by
  intro s b u lo h hlo howed
  let s' : Emitter := { s with builder := (Build.newLabel s.builder).2 }
  have htu : s'.Adds keep k lo (fun j => once (s.builder.labels + 1) j + owed j +
      span s'.builder.labels u.builder.labels j) u := by
    refine hf (s.builder.labels + 1) (s := s') h (Nat.le_succ_of_le hlo) fun k hk => ?_
    by_cases heq : k = s.builder.labels + 1
    · subst heq
      exact ⟨Nat.lt_succ_of_le hlo, Nat.le_refl _⟩
    · have hrest : owed k ≠ 0 := by simpa [once, heq] using hk
      exact ⟨(howed k hrest).1, Nat.le_succ_of_le (howed k hrest).2⟩
  have hle : s.builder.labels + 1 ≤ u.builder.labels := htu.builder.labels
  refine ⟨htu.context, htu.slots, htu.loops, ?_⟩
  have hadds := (Build.adds_newLabel s.builder lo).trans htu.builder
  rw [Nat.zero_add] at hadds
  refine hadds.mono (Nat.le_refl _) fun k => ?_
  show 0 + (once (s.builder.labels + 1) k + owed k + span (s.builder.labels + 1) u.builder.labels k) ≤
    owed k + span s.builder.labels u.builder.labels k
  unfold once span
  split_ifs <;> omega

/-- A label that was taken is placed. -/
theorem placeLabel (keep : LoopId → Prop) (i : Nat) :
    Places keep 0 (once i) (build (Build.placeLabel (.numbered i))) := by
  intro s a t lo h hlo howed
  have hi := howed i (by simp [once])
  cases h
  exact ⟨rfl, rfl, fun _ _ => rfl, (Build.adds_placeLabel s.builder hi.1 hi.2).mono (Nat.le_refl _)
    fun k => Nat.le_add_right _ _⟩

/-- A label that was taken is placed ahead of what follows. -/
theorem place {i : Nat} {f : Unit → Emit β} (hf : Places keep k owed (f ())) :
    Places keep k (fun k => once i k + owed k) (build (Build.placeLabel (.numbered i)) >>= f) := by
  intro s b u lo h hlo howed
  have hi := howed i (by simp [once])
  have hst := Build.adds_placeLabel s.builder hi.1 hi.2
  let s' : Emitter := { s with builder := (Build.placeLabel (.numbered i) s.builder).2 }
  have htu : s'.Adds keep k lo (fun j => owed j + span s'.builder.labels u.builder.labels j) u := by
    refine hf (s := s') h (hlo.trans hst.labels) fun k hk => ?_
    have hrest := howed k (show once i k + owed k ≠ 0 by omega)
    exact ⟨hrest.1, hrest.2.trans hst.labels⟩
  refine ⟨htu.context, htu.slots, htu.loops, ?_⟩
  have hadds := hst.trans htu.builder
  rw [Nat.zero_add] at hadds
  refine hadds.mono (Nat.le_refl _) fun k => ?_
  have hspan : span s.builder.labels s'.builder.labels k +
      span s'.builder.labels u.builder.labels k ≤ span s.builder.labels u.builder.labels k :=
    Builder.span_add_le hst.labels htu.builder.labels k
  show once i k + (owed k + span s'.builder.labels u.builder.labels k) ≤
    once i k + owed k + span s.builder.labels u.builder.labels k
  omega

end Places

instance (label : Ir.Label) : Extending (build (Build.placeLabel label)) where
  kept h := by
    cases h
    exact ⟨rfl, rfl, Build.extends_placeLabel _ label⟩

instance (data count value : Operand) (element : Ir.Ty) :
    Growing keep 1 (fillElements data count value element) := by
  refine Places.growing ?_
  unfold fillElements
  refine .andThen inferInstance (k := 0) (fun counter => .seq inferInstance fun _ => ?_) rfl
  refine .newLabel fun condition => .newLabel fun body => .newLabel fun done => ?_
  refine .congr (fun k => once condition k + (once body k + once done k)) ?_ fun k => by omega
  refine .place <| .seq inferInstance fun index => .seq inferInstance fun more =>
    .seq inferInstance fun _ => .place <| .seq inferInstance fun address => .seq inferInstance fun _ =>
    .seq inferInstance fun next => .seq inferInstance fun _ => .seq inferInstance fun _ =>
    .placeLabel keep done

/-! ## Expressions -/

section

instance (value : Operand) (how : Core.Cast) : Growing keep 0 (emitCast value how) := by
  unfold emitCast
  split
  · infer_instance
  · split
    · infer_instance
    · split <;> infer_instance

instance (value : Operand) (t : Ty) : Growing keep 0 (promote value t) := by
  unfold promote
  split
  · split <;> infer_instance
  · infer_instance
  · infer_instance

instance (count value : Operand) (element t : Ty) (heap : Bool) :
    Growing keep (if heap then 1 else 2) (fillArray count value element t heap) := by
  unfold fillArray
  refine growing_bind inferInstance fun elementType => ?_
  cases heap with
  | true =>
    simp only [if_true]
    exact .cast inferInstance rfl
  | false =>
    simp only [Bool.false_eq_true, if_false]
    exact .cast inferInstance rfl

instance (element : Ty) (count : Nat) : Growing keep 0 (elementsSize element count) := by
  unfold elementsSize
  refine growing_bind inferInstance fun size => ?_
  split <;> infer_instance

instance (aggregate : Operand) (size : Emit Nat) [Growing keep 0 size] (heap : Bool) :
    Growing keep 0 (placeAggregate aggregate size heap) := by
  unfold placeAggregate
  split
  · exact .cast inferInstance rfl
  · infer_instance

instance (format : Core.Expr) (values : Nat) (span : Span) :
    Growing keep 0 (requireFormat format values span) := by
  unfold requireFormat
  split
  · extract_lets pieces
    split
    · exact .cast inferInstance rfl
    · infer_instance
  · infer_instance

instance {left right : Emit Operand} [Growing keep n left] [Growing keep k right] (t : Ty)
    (instr : Operand → Ir.Ref → Ir.Instr) :
    Growing keep (n + k) (bothOperands t instr left right) := by
  unfold bothOperands
  exact .cast inferInstance rfl

instance {left right : Emit Operand} [hl : Growing keep n left] [hr : Growing keep k right]
    (decided : Bool) : Growing keep (n + k) (shortCircuit decided left right) := by
  unfold shortCircuit
  refine Places.growing (.andThen hl (fun a => .seq inferInstance fun s => ?_) rfl)
  refine .newLabel fun other => .newLabel fun done => ?_
  refine .congr (fun k => once other k + once done k) ?_ fun k => by omega
  have hrest : Places keep k (fun k => once other k + once done k) (do
      build (Build.placeLabel (.numbered other))
      let b ← right
      let fromRight := (← get).builder.currentLabel
      build (Build.placeLabel (.numbered done))
      build (Build.result (.int 1)
        (.phi (.int 1) [(.bool decided, s.builder.currentLabel), (b.ref, fromRight)]))) :=
    .place <| .andThen hr (fun b => .seq inferInstance fun s => .place <| .of_growing inferInstance)
      (Nat.add_zero k)
  split
  · exact .seq inferInstance fun _ => hrest
  · exact .seq inferInstance fun _ => hrest

mutual

theorem growing_emitExpr : (e : Core.Expr) → Growing keep e.cells (emitExpr e)
  | .mk kind t constant span => by
    have hkind := growing_emitKind t span kind
    unfold emitExpr Core.Expr.cells
    cases hknown : literal? t constant with
    | none => exact hkind
    | some known => exact inferInstanceAs (Growing keep 0 (constantOperand known t))

theorem growing_emitKind (t : Ty) (span : Span) :
    (kind : Core.ExprKind) → Growing keep kind.cells (emitKind t span kind)
  | .int n => by
    unfold emitKind
    exact .cast inferInstance rfl
  | .bool b => by
    unfold emitKind
    exact .cast inferInstance rfl
  | .str text => by
    unfold emitKind
    exact .cast inferInstance rfl
  | .load place => by
    have := growing_emitPlace place
    unfold emitKind
    exact .cast inferInstance rfl
  | .function id => by
    unfold emitKind
    exact .cast inferInstance rfl
  | .call callee args => by
    have := growing_emitExpr callee
    have (fixed : Nat) := growing_emitArguments fixed args
    unfold emitKind
    split
    · exact .cast inferInstance (by simp [Core.ExprKind.cells])
    · exact ⟨fun h => by cases h⟩
  | .macroCall id args => by
    have (intrinsic : Intrinsic) := growing_emitMacro intrinsic span args
    unfold emitKind
    refine growing_bind inferInstance fun c => ?_
    dsimp only
    split
    · exact ⟨fun h => by cases h⟩
    · exact this _
  | .binary op left right => by
    have := growing_emitExpr left
    have := growing_emitExpr right
    unfold emitKind
    split <;> exact .cast inferInstance rfl
  | .unary op operand => by
    have := growing_emitExpr operand
    unfold emitKind
    exact .cast inferInstance rfl
  | .address place => by
    have := growing_emitPlace place
    unfold emitKind
    exact .cast inferInstance rfl
  | .cast value how => by
    have := growing_emitExpr value
    unfold emitKind
    exact .cast inferInstance rfl
  | .extract base index => by
    have := growing_emitExpr base
    unfold emitKind
    exact .cast inferInstance rfl
  | .structInit id values heap => by
    have (aggregate : Operand) := growing_emitAggregate aggregate 0 values
    have : Growing keep 0 (do byteSize ((← context).structType id)) := .cast inferInstance rfl
    unfold emitKind
    exact .cast inferInstance (by simp [Core.ExprKind.cells])
  | .arrayInit element values heap => by
    have (aggregate : Operand) := growing_emitAggregate aggregate 0 values
    unfold emitKind
    exact .cast inferInstance (by simp [Core.ExprKind.cells])
  | .arrayFill element size value heap => by
    have := growing_emitExpr size
    have := growing_emitExpr value
    unfold emitKind
    exact .cast inferInstance (by simp [Core.ExprKind.cells, Nat.add_assoc])
  | .new value => by
    have := growing_emitExpr value
    unfold emitKind
    exact .cast inferInstance (by simp [Core.ExprKind.cells])

theorem growing_emitMacro (intrinsic : Intrinsic) (span : Span) :
    (args : List Core.Expr) → Growing keep (Core.macroCells args) (emitMacro intrinsic span args)
  | [] => ⟨fun h => by cases h⟩
  | format :: values => by
    have (pieces : List String) := growing_emitPieces pieces values
    unfold emitMacro
    exact .cast inferInstance (by simp [Core.macroCells])

theorem growing_emitArguments (fixed : Nat) :
    (args : List Core.Expr) → Growing keep (Core.cellsOf args) (emitArguments fixed args)
  | [] => by
    unfold emitArguments
    exact .cast inferInstance rfl
  | arg :: rest => by
    have := growing_emitExpr arg
    have := growing_emitArguments (fixed - 1) rest
    unfold emitArguments
    exact .cast inferInstance (by simp [Core.cellsOf])

theorem growing_emitAggregate (aggregate : Operand) (index : Nat) :
    (values : List Core.Expr) →
      Growing keep (Core.cellsOf values) (emitAggregate aggregate index values)
  | [] => by
    unfold emitAggregate
    exact .cast inferInstance rfl
  | part :: rest => by
    have := growing_emitExpr part
    have (next : Operand) := growing_emitAggregate next (index + 1) rest
    unfold emitAggregate
    exact .cast inferInstance (by simp [Core.cellsOf])

theorem growing_emitPieces (pieces : List String) :
    (values : List Core.Expr) → Growing keep (Core.cellsOf values) (emitPieces pieces values)
  | [] => by
    unfold emitPieces
    exact .cast inferInstance rfl
  | value :: rest => by
    have := growing_emitExpr value
    have := growing_emitPieces pieces.tail rest
    unfold emitPieces
    exact .cast inferInstance (by simp [Core.cellsOf])

theorem growing_emitPlace : (place : Core.Place) → Growing keep place.cells (emitPlace place)
  | .mk kind t _ _ => by
    unfold emitPlace
    exact growing_emitPlaceKind t kind

theorem growing_emitPlaceKind (t : Ty) :
    (kind : Core.PlaceKind) → Growing keep kind.cells (emitPlaceKind t kind)
  | .slot id => by
    unfold emitPlaceKind
    exact .cast inferInstance rfl
  | .global id => by
    unfold emitPlaceKind
    exact .cast inferInstance rfl
  | .deref pointer => by
    unfold emitPlaceKind
    exact growing_emitExpr pointer
  | .field base id index => by
    have := growing_emitExpr base
    unfold emitPlaceKind
    exact .cast inferInstance rfl
  | .element data index => by
    have := growing_emitExpr data
    have := growing_emitExpr index
    unfold emitPlaceKind
    exact .cast inferInstance rfl

end

attribute [instance] growing_emitExpr growing_emitPlace growing_emitArguments growing_emitAggregate
  growing_emitPieces growing_emitMacro

/-! ## Statements -/

theorem Growing.mono {keep' : LoopId → Prop} (h : Growing keep n e)
    (hkeep : ∀ id, keep' id → keep id) : Growing keep' n e where
  grows he :=
    have hst := h.grows he
    ⟨hst.context, hst.slots, fun id hid => hst.loops id (hkeep id hid), hst.builder⟩

instance (id : LocalId) (value : Option Core.Expr) :
    Growing keep (Core.cellsOfOption value) (emitDeclare id value) := by
  unfold emitDeclare
  cases value with
  | none => exact .cast inferInstance rfl
  | some value => exact .cast inferInstance (by simp [Core.cellsOfOption])

instance (target : Core.Place) (value : Core.Expr) (releasePrior : Bool) :
    Growing keep (value.cells + target.cells) (emitAssign target value releasePrior) := by
  unfold emitAssign
  cases releasePrior with
  | true =>
    simp only [if_true]
    exact .cast inferInstance (by simp)
  | false =>
    simp only [Bool.false_eq_true, if_false]
    exact .cast inferInstance (by simp)

instance (value : Core.Expr) (unused : Bool) : Growing keep value.cells (emitExprStmt value unused) := by
  unfold emitExprStmt
  exact .cast inferInstance (by simp)

instance (value : Option Core.Expr) (drops : List LocalId) :
    Growing keep (Core.cellsOfOption value) (emitReturn value drops) := by
  unfold emitReturn
  cases value with
  | none => exact .cast inferInstance rfl
  | some value => 
    simp only [map_eq_pure_bind]
    exact .cast inferInstance (by simp [Core.cellsOfOption])

instance (id : LoopId) (drops : List LocalId) (label : LoopLabels → Ir.Label) :
    Growing keep 0 (emitJump id drops label) := by
  unfold emitJump
  exact .cast inferInstance rfl

theorem growing_enterLoop {id : LoopId} (hid : ¬keep id) (labels : LoopLabels) :
    Growing keep 0 (enterLoop id labels) where
  grows h := by
    cases h
    refine ⟨rfl, rfl, fun i hi => ?_, Builder.Grows.refl _⟩
    have hne : i ≠ id := fun heq => hid (heq ▸ hi)
    rw [List.lookup_cons, beq_false_of_ne hne]

instance (condition : Option Core.Expr) (first done : Ir.Label) :
    Growing keep (Core.testCells condition) (emitLoopTest condition first done) := by
  unfold emitLoopTest Core.testCells
  cases condition with
  | none => infer_instance
  | some test => 
    dsimp only
    split
    · infer_instance
    · exact .cast inferInstance (by simp)

theorem growing_emitLoop {id : LoopId} {condition : Option Core.Expr} {body step : Emit Unit}
    (hid : ¬keep id) (hbody : Growing keep n body) (hstep : Growing keep k step)
    (exitDrops : List LocalId) :
    Growing keep (Core.testCells condition + (n + k)) (emitLoop id condition body step exitDrops) := by
  refine Places.growing ?_
  unfold emitLoop
  refine .newLabel fun check => .newLabel fun first => .newLabel fun next => .newLabel fun done => ?_
  refine .congr (fun k => once check k + (once first k + (once next k + (once done k + 0)))) ?_
    fun k => by omega
  refine .seq (growing_enterLoop hid _) fun _ => .place <| .andThen inferInstance (fun _ => .place <|
    .andThen hbody (fun _ => .place <| .andThen hstep (fun _ => .seq inferInstance fun _ => .place <|
    .of_growing (growing_dropLocals exitDrops)) (Nat.add_zero k)) rfl) rfl

theorem growing_emitBranch (condition : Core.Expr) {body : Emit Unit} (hbody : Growing keep n body)
    (done : Ir.Label) : Growing keep (condition.cells + n) (emitBranch condition body done) := by
  refine Places.growing ?_
  unfold emitBranch
  refine .andThen inferInstance (fun value => .newLabel fun taken => .newLabel fun otherwise => ?_) rfl
  refine .congr (fun k => once taken k + once otherwise k) ?_ fun k => by omega
  refine .seq inferInstance fun _ => .place <| .andThen hbody (fun _ => .seq inferInstance fun closed => ?_)
    (Nat.add_zero n)
  split
  · exact .seq inferInstance fun _ => .placeLabel keep otherwise
  · exact .placeLabel keep otherwise

section

open OwnLang.Core (Stmt StmtKind Block)

theorem growing_emitStmts_cons {s : Stmt} {rest : List Stmt} (hs : Growing keep s.cells (emitStmt s))
    (hrest : Growing keep (Core.stmtsCells rest) (emitStmts rest)) :
    Growing keep (Core.stmtsCells (s :: rest)) (emitStmts (s :: rest)) := by
  unfold emitStmts Core.stmtsCells
  cases s.unreachable with
  | true =>
    simp only [Bool.not_true, Bool.false_eq_true, if_false, if_true]
    exact .cast inferInstance (by simp)
  | false =>
    simp only [Bool.not_false, Bool.false_eq_true, if_false, if_true]
    exact .cast inferInstance rfl

mutual

theorem growing_emitBlock {around : List LoopId} :
    (b : Block) → b.Nested around → Growing (· ∈ around) b.cells (emitBlock b)
  | .mk stmts drops, h => by
    have := growing_emitStmts stmts h
    unfold emitBlock
    exact .cast inferInstance rfl

theorem growing_emitStmts {around : List LoopId} :
    (stmts : List Stmt) → Core.stmtsNested around stmts →
      Growing (· ∈ around) (Core.stmtsCells stmts) (emitStmts stmts)
  | [], _ => by
    unfold emitStmts
    exact .cast inferInstance rfl
  | s :: rest, h => growing_emitStmts_cons (growing_emitStmt s h.1) (growing_emitStmts rest h.2)

theorem growing_emitStmt {around : List LoopId} :
    (s : Stmt) → s.Nested around → Growing (· ∈ around) s.cells (emitStmt s)
  | .mk kind _ _, h => by
    unfold emitStmt
    exact growing_emitStmtKind kind h

theorem growing_emitStmtKind {around : List LoopId} :
    (kind : StmtKind) → kind.Nested around → Growing (· ∈ around) kind.cells (emitStmtKind kind)
  | .declare id value, _ => by
    unfold emitStmtKind
    exact .cast inferInstance rfl
  | .assign target value releasePrior, _ => by
    unfold emitStmtKind
    exact .cast inferInstance rfl
  | .expr value unused, _ => by
    unfold emitStmtKind
    exact .cast inferInstance rfl
  | .ret value drops, _ => by
    unfold emitStmtKind
    exact .cast inferInstance rfl
  | .brk id drops, _ => by
    unfold emitStmtKind
    exact .cast inferInstance rfl
  | .cont id drops, _ => by
    unfold emitStmtKind
    exact .cast inferInstance rfl
  | .cond branches otherwise, h => by
    have hotherwise := growing_emitOptionalBlock otherwise h.2
    have hbranches (done : Ir.Label) : Growing (· ∈ around)
        (Core.branchCells branches (Core.otherwiseCells otherwise))
        (emitBranches done branches (emitOptionalBlock otherwise)) :=
      growing_emitBranches done branches hotherwise h.1
    unfold emitStmtKind
    refine Places.growing (.newLabel fun done => ?_)
    refine .andThen (hbranches (.numbered done)) (fun _ => ?_) (Nat.add_zero _)
    exact .congr (once done) (.placeLabel _ done) fun k => rfl
  | .loop id init condition step body exitDrops, h => by
    have hinit := growing_emitOptionalStmt init h.2.1
    have hstep := growing_emitOptionalStmt step h.2.2.1
    have hbody := growing_emitBlock body h.2.2.2
    have hkeep (i : LoopId) (hi : i ∈ around) : i ∈ id :: around := List.mem_cons_of_mem id hi
    have hloop : Growing (· ∈ around)
        (Core.testCells condition + (body.cells + Core.optionalCells step))
        (emitLoop id condition (emitBlock body) (emitOptionalStmt step) exitDrops) :=
      growing_emitLoop h.1 (hbody.mono hkeep) (hstep.mono hkeep) exitDrops
    unfold emitStmtKind
    exact .cast inferInstance rfl
  | .scope block, h => by
    unfold emitStmtKind
    exact growing_emitBlock block h

theorem growing_emitBranches {around : List LoopId} {m : Nat} {otherwise : Emit Unit}
    (done : Ir.Label) :
    (branches : List (Core.Expr × Block)) → Growing (· ∈ around) m otherwise →
      Core.branchesNested around branches →
      Growing (· ∈ around) (Core.branchCells branches m) (emitBranches done branches otherwise)
  | [], hotherwise, _ => by
    unfold emitBranches
    exact hotherwise
  | (condition, body) :: rest, hotherwise, h => by
    have hbody := growing_emitBlock body h.1
    have hrest := growing_emitBranches done rest hotherwise h.2
    have hbranch := growing_emitBranch condition hbody done
    unfold emitBranches Core.branchCells
    cases condition.known? with
    | none => exact .cast inferInstance (Nat.add_assoc _ _ _)
    | some known =>
      cases known with
      | false => exact hrest
      | true => exact hbody

theorem growing_emitOptionalBlock {around : List LoopId} :
    (b : Option Block) → Core.otherwiseNested around b →
      Growing (· ∈ around) (Core.otherwiseCells b) (emitOptionalBlock b)
  | none, _ => by
    unfold emitOptionalBlock
    exact .cast inferInstance rfl
  | some b, h => by
    unfold emitOptionalBlock
    exact growing_emitBlock b h

theorem growing_emitOptionalStmt {around : List LoopId} :
    (s : Option Stmt) → Core.optionalNested around s →
      Growing (· ∈ around) (Core.optionalCells s) (emitOptionalStmt s)
  | none, _ => by
    unfold emitOptionalStmt
    exact .cast inferInstance rfl
  | some s, h => by
    unfold emitOptionalStmt
    exact growing_emitStmt s h

end

end

end

end Emit

end OwnLang
