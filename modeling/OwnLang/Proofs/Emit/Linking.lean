import Mathlib
import OwnLang.Proofs.Emit.Linkage

/-!
# Emission refers to introduced names only

Each part of emission, begun where only introduced names are referred to, ends in such a state and returns
only such data (`Emit.Linking`), provided that the string constants that there are at its end are introduced
as well. Later parts add to these and take none away, which is why each part is also `Extending`.
-/

namespace OwnLang

open Ir (Operand OpenFunction Build)

namespace Emit

variable {L : Linkage} {α β : Type} [Refers α] [Refers β]

/-- A part of emission refers to introduced names only. -/
structure Linking (L : Linkage) (e : Emit α) : Prop extends Extending e where
  links : ∀ {s a t}, e s = .ok a t → s.Linked L →
    (∀ n < t.builder.strings.size, L.introduces (.string n)) → t.Linked L ∧ L.Allows a

theorem linking_pure {a : α} (h : L.Allows a) : Linking L (pure a : Emit α) where
  toExtending := inferInstance
  links hrun hs _ := by
    cases hrun
    exact ⟨hs, h⟩

theorem linking_reject (cause : Cause) (span : Span) : Linking L (Run.reject cause span : Emit α) where
  toExtending := inferInstance
  links hrun := by cases hrun

theorem linking_stop (why : Stop) : Linking L (Run.stop why : Emit α) where
  toExtending := inferInstance
  links hrun := by cases hrun

theorem Linking.bind {e : Emit α} {f : α → Emit β} [hext : ∀ a, Extending (f a)] (he : Linking L e)
    (hf : ∀ a, L.Allows a → Linking L (f a)) : Linking L (e >>= f) where
  toExtending :=
    have := he.toExtending
    inferInstance
  links hrun hs hstrings := by
    obtain ⟨a, t, ha, hb⟩ := Run.bind_eq_ok.mp hrun
    have hsize := ((hext a).kept hb).builder.strings.size_le
    obtain ⟨ht, hallowed⟩ := he.links ha hs fun n hn => hstrings n (hn.trans_le hsize)
    exact (hf a hallowed).links hb ht hstrings

/-- A step whose result does not matter, and what comes behind it. -/
theorem Linking.seq {e : Emit Unit} {f : Unit → Emit β} (he : Linking L e) (hf : Linking L (f ())) :
    Linking L (e >>= f) :=
  have _hext (u : Unit) : Extending (f u) := hf.toExtending
  he.bind fun _ _ => hf

theorem Linking.ite {p : Prop} [Decidable p] {e e' : Emit α} (he : Linking L e) (he' : Linking L e') :
    Linking L (if p then e else e') := by
  split
  · exact he
  · exact he'

theorem linking_get : Linking L (get : Emit Emitter) where
  toExtending := inferInstance
  links hrun hs _ := by
    cases hrun
    exact ⟨hs, hs⟩

theorem linking_forIn {γ : Type} {xs : List γ} {f : γ → PUnit → Emit (ForInStep PUnit)}
    (h : ∀ i ∈ xs, Linking L (f i ⟨⟩)) : Linking L (forIn xs ⟨⟩ f : Emit PUnit) := by
  induction xs with
  | nil => exact linking_pure trivial
  | cons i rest ih =>
    have hrest := ih fun j hj => h j (List.mem_cons_of_mem _ hj)
    rw [List.forIn_cons]
    refine @Linking.bind L _ _ _ _ _ _ (fun step => ?_) (h i List.mem_cons_self) fun step _ => ?_
    · cases step with
      | done b => exact (linking_pure (L := L) (a := b) trivial).toExtending
      | yield b => exact hrest.toExtending
    · cases step with
      | done b => exact linking_pure trivial
      | yield b => exact hrest

theorem linking_mapM {γ : Type} {xs : List γ} {f : γ → Emit β} (h : ∀ i ∈ xs, Linking L (f i)) :
    Linking L (xs.mapM f) := by
  induction xs with
  | nil => exact linking_pure Linkage.allows_nil
  | cons i rest ih =>
    have hrest := ih fun j hj => h j (List.mem_cons_of_mem _ hj)
    have := hrest.toExtending
    rw [List.mapM_cons]
    exact (h i List.mem_cons_self).bind fun b hb => hrest.bind fun bs hbs =>
      linking_pure (Linkage.allows_cons.mpr ⟨hb, hbs⟩)

/-! ## Steps of building -/

theorem linking_build {step : Ir.Build α} [Extending (build step)]
    (h : ∀ (b : Ir.Builder) f, b.function = some f → L.Allows f →
      (∀ n < (step b).2.strings.size, L.introduces (.string n)) →
      (∃ g, (step b).2.function = some g ∧ L.Allows g) ∧ L.Allows (step b).1) :
    Linking L (build step) where
  toExtending := inferInstance
  links hrun hs hstrings := by
    cases hrun
    obtain ⟨f, hf, hallowed⟩ := hs.function
    obtain ⟨hfunction, hresult⟩ := h _ f hf hallowed hstrings
    exact ⟨{ hs with function := hfunction }, hresult⟩

/-- A line is added to the open function. -/
theorem allows_pushed {b : Ir.Builder} {f : OpenFunction} (hf : b.function = some f) (h : L.Allows f)
    {line : Ir.Line} (hline : L.Allows line) :
    ∃ g, (Build.push line b).2.function = some g ∧ L.Allows g := by
  rw [Build.push_apply]
  refine ⟨_, ?_, Linkage.allows_push (Linkage.allows_opened h (b.labels + 1)) hline⟩
  show Option.map _ (Build.opened b).function = _
  rw [Build.opened_function b hf]
  rfl

theorem linking_effect {instr : Ir.Instr} (h : L.Allows instr) :
    Linking L (build (Build.effect instr)) :=
  linking_build fun _ _ hf hallowed _ =>
    ⟨allows_pushed hf hallowed (Linkage.allows_effect.mpr h), trivial⟩

theorem linking_store {value address : Operand} (hvalue : L.Allows value) (haddress : L.Allows address) :
    Linking L (build (Build.store value address)) :=
  linking_effect (Linkage.allows_store.mpr ⟨hvalue, haddress⟩)

theorem linking_result {type : Ir.Ty} {instr : Ir.Instr} (htype : L.Allows type) (h : L.Allows instr) :
    Linking L (build (Build.result type instr)) := by
  refine linking_build fun b f hf hallowed _ => ?_
  rw [Build.result_apply type instr hf]
  exact ⟨allows_pushed rfl (f := { f with temps := f.temps + 1 }) hallowed (Linkage.allows_result.mpr h),
    Linkage.allows_operand.mpr ⟨htype, Linkage.allows_temp⟩⟩

theorem linking_load {type : Ir.Ty} {address : Operand} (htype : L.Allows type)
    (haddress : L.Allows address) : Linking L (build (Build.load type address)) :=
  linking_result htype (Linkage.allows_load.mpr ⟨htype, haddress⟩)

theorem linking_call {returns : Ir.Ty} {callee : Ir.Ref} {args : List Operand} {signature : Option Ir.Ty}
    (hreturns : L.Allows returns) (hcallee : L.Allows callee) (hargs : L.Allows args)
    (hsignature : L.Allows signature) : Linking L (build (Build.call returns callee args signature)) := by
  have hinstr : L.Allows (Ir.Instr.call (signature.getD returns) callee args) := by
    refine Linkage.allows_call.mpr ⟨⟨?_, hcallee⟩, hargs⟩
    cases signature with
    | none => exact hreturns
    | some type => exact Linkage.allows_some.mp hsignature
  by_cases hvoid : returns.isVoid
  · refine linking_build fun b f hf hallowed _ => ?_
    rw [Build.call, if_pos hvoid]
    exact ⟨allows_pushed hf hallowed (Linkage.allows_effect.mpr hinstr), Linkage.allows_operandVoid⟩
  · have hcall : Build.call returns callee args signature =
        Build.result returns (.call (signature.getD returns) callee args) := if_neg hvoid
    rw [hcall]
    exact linking_result hreturns hinstr

theorem linking_string (text : String) : Linking L (build (Build.string text)) := by
  refine linking_build fun b f hf hallowed hstrings => ⟨⟨f, ?_, hallowed⟩, ?_⟩
  · rw [Build.string_apply]
    cases b.strings.findIdx? (· == text) <;> exact hf
  · obtain ⟨n, hn, hnumber⟩ := Build.string_number text b
    rw [hnumber]
    exact Linkage.allows_operand.mpr ⟨Linkage.allows_ptr, Linkage.allows_string.mpr (hstrings n hn)⟩

theorem linking_newSlot {type : Ir.Ty} (h : L.Allows type) : Linking L (build (Build.slot type)) := by
  refine linking_build fun b f hf hallowed _ => ?_
  rw [Build.slot_apply type hf]
  exact ⟨⟨_, rfl, Linkage.allows_addSlot hallowed h _⟩,
    Linkage.allows_operand.mpr ⟨Linkage.allows_ptr, Linkage.allows_temp⟩⟩

/-- A fresh label is a number, for whatever it is taken. -/
theorem Linking.newLabel {f : Ir.Label → Emit β} (hf : ∀ k, Linking L (f (.numbered k))) :
    Linking L (build Build.newLabel >>= f) where
  kept hrun := by
    obtain ⟨label, t, hlabel, hrest⟩ := Run.bind_eq_ok.mp hrun
    have hst := Extending.kept hlabel
    cases hlabel
    exact hst.trans ((hf _).kept hrest)
  links hrun hs hstrings := by
    obtain ⟨label, t, hlabel, hrest⟩ := Run.bind_eq_ok.mp hrun
    cases hlabel
    obtain ⟨g, hg, hallowed⟩ := hs.function
    exact (hf _).links hrest { hs with function := ⟨g, hg, hallowed⟩ } hstrings

theorem allows_terminated {b : Ir.Builder} {f : OpenFunction} (hf : b.function = some f) (h : L.Allows f)
    {terminator : Ir.Terminator} (hterminator : L.Allows terminator) :
    ∃ g, (Build.terminate terminator b).2.function = some g ∧ L.Allows g := by
  obtain ⟨g, hg, hallowed⟩ := allows_pushed hf h (Linkage.allows_leave.mpr hterminator)
  rw [Build.push_apply] at hg
  rw [Build.terminate_apply]
  refine ⟨{ g with terminated := true }, ?_, hallowed⟩
  show Option.map _ ((Build.opened b).addLine (.leave terminator)).function = _
  rw [hg]
  rfl

theorem linking_br {target : Ir.Label} (h : L.Allows target) : Linking L (build (Build.br target)) :=
  linking_build fun _ _ hf hallowed _ => ⟨allows_terminated hf hallowed h, trivial⟩

theorem linking_condBr {test : Operand} {yes no : Ir.Label} (htest : L.Allows test) (hyes : L.Allows yes)
    (hno : L.Allows no) : Linking L (build (Build.condBr test yes no)) :=
  linking_build fun _ _ hf hallowed _ =>
    ⟨allows_terminated hf hallowed (Linkage.allows_condBr.mpr ⟨⟨htest, hyes⟩, hno⟩), trivial⟩

theorem linking_ret {value : Option Operand} (h : L.Allows value) : Linking L (build (Build.ret value)) := by
  refine linking_build fun _ _ hf hallowed _ =>
    ⟨allows_terminated hf hallowed (Linkage.allows_ret.mpr fun v hv => h v ?_), trivial⟩
  exact (Option.mem_filter_iff.mp hv).1

theorem linking_placeLabel {label : Ir.Label} (h : L.Allows label) :
    Linking L (build (Build.placeLabel label)) := by
  refine linking_build fun b f hf hallowed _ => ⟨?_, trivial⟩
  rw [Build.placeLabel_apply]
  have hstart {b : Ir.Builder} {f : OpenFunction} (hf : b.function = some f) (hallowed : L.Allows f) :
      ∃ g, (b.startBlock label).function = some g ∧ L.Allows g :=
    ⟨_, by rw [Ir.Builder.startBlock, Ir.Builder.modifyFunction, hf]; rfl,
      Linkage.allows_startBlock hallowed h⟩
  split
  · exact hstart hf hallowed
  · obtain ⟨g, hg, hclosed⟩ := allows_terminated hf hallowed (Linkage.allows_br.mpr h)
    exact hstart hg hclosed

end Emit

end OwnLang
