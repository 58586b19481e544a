import OwnLang.Proofs.Emit.Flow

/-!
# Expressions from site to site

Wherever an expression is evaluated in an open block, control goes on in an open block in which its value is known
(`Site.evaluates_emitExpr`). Expressions that take labels put blocks of their own in between: the rounds that fill an
array, and the right operand of `&&` and `||`, whose value a `phi` merges with that of the left one.
-/

namespace OwnLang

open Ir (Build Builder Label Layout Line OpenFunction Operand Port Ref Terminator)
open Emit (build build_apply Reading)

/-! ## Looking at the state -/

namespace Emit

variable {α β : Type} {e : Emit α} {f : α → Emit β}

instance (a : α) : Reading (pure a : Emit α) := ⟨fun h => by cases h; rfl⟩

instance : Reading (get : Emit Emitter) := ⟨fun h => by cases h; rfl⟩

instance (cause : Cause) (span : Span) : Reading (Run.reject cause span : Emit α) := ⟨fun h => by cases h⟩

instance (why : Stop) : Reading (Run.stop why : Emit α) := ⟨fun h => by cases h⟩

instance [he : Reading e] [hf : ∀ a, Reading (f a)] : Reading (e >>= f) where
  same h := by
    obtain ⟨a, s, hx, hy⟩ := Run.bind_eq_ok.mp h
    exact ((hf a).same hy).trans (he.same hx)

instance : Reading context := by
  unfold context
  infer_instance

instance : Reading isTerminated := by
  unfold isTerminated
  infer_instance

instance (t : Ty) : Reading (irType t) := by
  unfold irType
  infer_instance

instance (id : GlobalId) : Reading (symbolOf id) := by
  unfold symbolOf
  infer_instance

theorem reading_bind (he : Reading e) (hf : ∀ a, Reading (f a)) : Reading (e >>= f) := inferInstance

instance (id : LocalId) : Reading (slot id) := by
  unfold slot
  refine reading_bind inferInstance fun s => ?_
  split <;> infer_instance

instance (id : LoopId) : Reading (loopLabels id) := by
  unfold loopLabels
  refine reading_bind inferInstance fun s => ?_
  split <;> infer_instance

instance (t : Ty) : Reading (byteSize t) := by
  unfold byteSize
  refine reading_bind inferInstance fun c => ?_
  split <;> infer_instance

instance (element : Ty) (count : Nat) : Reading (elementsSize element count) := by
  unfold elementsSize
  refine reading_bind inferInstance fun size => ?_
  split <;> infer_instance

instance (format : Core.Expr) (values : Nat) (span : Span) : Reading (requireFormat format values span) := by
  unfold requireFormat
  split
  · extract_lets pieces
    split <;> infer_instance
  · infer_instance

/-- A local's slot is one of those that the state knows. -/
theorem slot_eq_ok {id : LocalId} {s t : Emitter} {a : Operand × Ty} (h : slot id s = .ok a t) : a ∈ s.slots := by
  obtain ⟨u, s₁, hget, h⟩ := Run.bind_eq_ok.mp h
  cases hget
  cases hfound : s.slots[id.index]? with
  | none =>
    rw [hfound] at h
    cases h
  | some found =>
    rw [hfound] at h
    cases h
    exact Array.mem_of_getElem? hfound

end Emit

namespace Site

variable {w : Site} {data count value aggregate : Operand}

/-- Operands that have values at a site. -/
def KnowsAll (w : Site) (operands : List Operand) : Prop := ∀ a ∈ operands, w.Knows a.ref

theorem KnowsAll.keeps {w' : Site} {operands : List Operand} (h : w.KnowsAll operands) (hw : w.Keeps w') :
    w'.KnowsAll operands := fun a ha => (h a ha).keeps hw

/-! ## Allocating and releasing -/

theorem evaluates_slot (id : LocalId) : w.Evaluates (Emit.slot id) fun a w' => w'.Knows a.1.ref :=
  .look fun _ h => IsSlot.knows (w.slots _ (Emit.slot_eq_ok h))

theorem evaluates_symbolOf (id : GlobalId) : w.Evaluates (Emit.symbolOf id) fun r w' => w'.Knows r := by
  refine .look fun r h => ?_
  obtain ⟨c, s, -, hreturn⟩ := Run.bind_eq_ok.mp h
  cases hreturn
  trivial

theorem evaluates_constantOperand (known : Const) (t : Ty) :
    w.Evaluates (Emit.constantOperand known t) fun a w' => w'.Knows a.ref := by
  unfold Emit.constantOperand
  cases known with
  | int n => exact .reading fun type _ => .pure trivial
  | bool b => exact .pure trivial
  | str text => exact evaluates_string text

theorem evaluates_allocate (h : w.Knows value.ref) :
    w.Evaluates (Emit.allocate value) fun a w' => w'.Knows a.ref :=
  evaluates_call .ptr none trivial (List.forall_mem_singleton.mpr h)

theorem evaluates_heapCopy (h : w.Knows value.ref) (size : Nat) :
    w.Evaluates (Emit.heapCopy value size) fun a w' => w'.Knows a.ref :=
  .bind (evaluates_allocate trivial) fun _ _ hw hpointer =>
    (evaluates_store (h.keeps hw) hpointer).bind fun _ _ hw' _ => .pure (hpointer.keeps hw')

theorem evaluates_extract (type : Ir.Ty) (h : w.Knows aggregate.ref) (index : Nat) :
    w.Evaluates (Emit.extract type aggregate index) fun a w' => w'.Knows a.ref :=
  evaluates_result type rfl (List.forall_mem_singleton.mpr h)

theorem evaluates_release : ∀ {w : Site} {value : Operand} (t : Ty), w.Knows value.ref →
    w.Evaluates (Emit.release value t) fun _ _ => True
  | w, value, .mk (.owner ..) _, h => by
    unfold Emit.release
    exact .bind (evaluates_call .void none trivial (List.forall_mem_singleton.mpr h)) fun _ _ _ _ => .pure trivial
  | w, value, .mk (.array element _ (some size)) _, h => by
    unfold Emit.release
    split
    · refine .reading fun type _ => .bind (.forIn fun i _ w₁ hw₁ => ?_) fun _ _ _ _ => .pure trivial
      refine (evaluates_extract type (h.keeps hw₁) i).bind fun part w₂ _ hpart => ?_
      exact (evaluates_release element hpart).bind fun _ _ _ _ => .pure trivial
    · exact .pure trivial
  | w, value, .mk (.int _) _, _ | w, value, .mk .bool _, _ | w, value, .mk .void _, _
  | w, value, .mk (.func ..) _, _ | w, value, .mk (.shared ..) _, _ | w, value, .mk (.array _ _ none) _, _
  | w, value, .mk (.struct ..) _, _ => by
    unfold Emit.release
    exact .pure trivial

theorem evaluates_dropLocals : ∀ {w : Site} (ids : List LocalId),
    w.Evaluates (Emit.dropLocals ids) fun _ _ => True
  | w, [] => .pure trivial
  | w, id :: rest => by
    unfold Emit.dropLocals
    refine (evaluates_slot id).bind fun (address, t) w₁ _ haddress => .reading fun type _ => ?_
    refine (evaluates_load type haddress).bind fun prior w₂ _ hprior => ?_
    exact (evaluates_release t hprior).bind fun _ w₃ _ _ => evaluates_dropLocals rest

/-! ## Formatted output -/

theorem KnowsAll.append {a b : Rendering} (ha : w.KnowsAll a.args) (hb : w.KnowsAll b.args) :
    w.KnowsAll (a ++ b).args := List.forall_mem_append.mpr ⟨ha, hb⟩

theorem knowsAll_plain (text : String) : w.KnowsAll (Rendering.plain text).args := List.forall_mem_nil _

theorem KnowsAll.joined (separator : String) : ∀ {rs : List Rendering}, (∀ r ∈ rs, w.KnowsAll r.args) →
    w.KnowsAll (Rendering.joined separator rs).args
  | [], _ => knowsAll_plain _
  | [r], h => h r (List.mem_singleton_self r)
  | r :: _ :: _, h =>
    ((h r List.mem_cons_self).append (knowsAll_plain separator)).append
      (KnowsAll.joined separator fun r' hr' => h r' (List.mem_cons_of_mem _ hr'))

theorem evaluates_boolText (h : w.Knows value.ref) :
    w.Evaluates (Emit.boolText value) fun a w' => w'.Knows a.ref := by
  unfold Emit.boolText
  refine (evaluates_string _).bind fun yes w₁ hw₁ hyes => (evaluates_string _).bind fun no w₂ hw₂ hno => ?_
  exact evaluates_result .ptr rfl (List.forall_mem_cons.mpr ⟨(h.keeps hw₁).keeps hw₂,
    List.forall_mem_cons.mpr ⟨hyes.keeps hw₂, List.forall_mem_singleton.mpr hno⟩⟩)

theorem evaluates_renderPointer (h : w.Knows value.ref) (t : Ty) (span : Span) :
    w.Evaluates (Emit.renderPointer value t span) fun r w' => w'.KnowsAll r.args := by
  unfold Emit.renderPointer
  refine .reading fun c _ => ?_
  split
  · exact .reject
  · rename_i method _
    refine (evaluates_symbolOf method).bind fun callee w₁ hw₁ hcallee => ?_
    refine (evaluates_call .ptr none hcallee (List.forall_mem_singleton.mpr (h.keeps hw₁))).bind ?_
    exact fun text w₂ _ htext => .pure (List.forall_mem_singleton.mpr htext)

theorem evaluates_renderings {γ : Type} {xs : List γ} {f : γ → Emit Rendering}
    (h : ∀ i ∈ xs, ∀ w', w.Keeps w' → w'.Evaluates (f i) fun r w'' => w''.KnowsAll r.args) :
    w.Evaluates (xs.mapM f) fun rs w' => ∀ r ∈ rs, w'.KnowsAll r.args :=
  .mapM (fun hr hw => KnowsAll.keeps hr hw) h

/-- A value is rendered by what is known if the structs that it holds are. -/
theorem evaluates_renderGiven {renderStruct : StructId → Operand → Emit Rendering} {span : Span} (t : Ty)
    (hstruct : ∀ (w : Site) id (value : Operand), w.Knows value.ref →
      w.Evaluates (renderStruct id value) fun r w' => w'.KnowsAll r.args) (h : w.Knows value.ref) :
    w.Evaluates (Emit.renderGiven renderStruct span value t) fun r w' => w'.KnowsAll r.args := by
  induction value, t using Emit.renderGiven.induct generalizing w with
  | case1 | case2 => exact .pure (List.forall_mem_singleton.mpr h)
  | case3 value width writtenAs h64 h32 =>
    rw [Emit.renderGiven]
    · refine .bind (evaluates_result (.int 32) rfl (List.forall_mem_singleton.mpr h)) fun _ _ _ hwidened => ?_
      exact .pure (List.forall_mem_singleton.mpr hwidened)
    · exact h64
    · exact h32
  | case4 =>
    refine (evaluates_boolText h).bind fun text w' _ htext => ?_
    exact .pure (List.forall_mem_singleton.mpr htext)
  | case5 value element constant size writtenAs ih =>
    refine .reading fun type _ => ?_
    refine (evaluates_renderings fun index _ w₁ hw₁ => ?_).bind fun parts w₂ _ hparts => ?_
    · exact (evaluates_extract type (h.keeps hw₁) index).bind fun part w₂ _ hpart => ih part hpart
    · exact .pure (((knowsAll_plain _).append (.joined _ hparts)).append (knowsAll_plain _))
  | case6 value id name writtenAs => exact hstruct w id value h
  | case7 value t h64 h32 hint hbool harray hstruct' hstring =>
    rw [Emit.renderGiven, if_pos hstring]
    · exact .pure (List.forall_mem_singleton.mpr h)
    all_goals assumption
  | case8 value t h64 h32 hint hbool harray hstruct' hstring =>
    rw [Emit.renderGiven, if_neg hstring]
    · exact evaluates_renderPointer h _ _
    all_goals assumption

theorem evaluates_renderField {renderTy : Operand → Ty → Emit Rendering}
    (hrender : ∀ (w : Site) (part : Operand) t, w.Knows part.ref →
      w.Evaluates (renderTy part t) fun r w' => w'.KnowsAll r.args) (h : w.Knows value.ref) (field : Field)
    (index : Nat) : w.Evaluates (Emit.renderField renderTy value field index) fun r w' => w'.KnowsAll r.args := by
  unfold Emit.renderField
  refine .reading fun type _ => (evaluates_extract type h index).bind fun part w₁ _ hpart => ?_
  refine (hrender w₁ part field.type hpart).bind fun shown w₂ _ hshown => ?_
  exact .pure ((knowsAll_plain _).append hshown)

theorem evaluates_renderStructTo (w : Site) (span : Span) (n : Nat) (id : StructId) (value : Operand)
    (h : w.Knows value.ref) :
    w.Evaluates (Emit.renderStructTo span n id value) fun r w' => w'.KnowsAll r.args := by
  induction n generalizing w id value with
  | zero => exact .stop
  | succ n ih =>
    unfold Emit.renderStructTo
    refine .reading fun c _ => ?_
    refine (evaluates_renderings fun field _ w₁ hw₁ => ?_).bind fun parts w₂ _ hparts => ?_
    · exact evaluates_renderField (fun _ _ type hpart => evaluates_renderGiven type ih hpart) (h.keeps hw₁) _ _
    · exact .pure (((knowsAll_plain _).append (.joined _ hparts)).append (knowsAll_plain _))

theorem evaluates_render (h : w.Knows value.ref) (t : Ty) (span : Span) :
    w.Evaluates (Emit.render value t span) fun r w' => w'.KnowsAll r.args := by
  unfold Emit.render
  exact .reading fun c _ => evaluates_renderGiven t (fun w' id part hpart =>
    evaluates_renderStructTo w' span _ id part hpart) h

theorem evaluates_callPrintf {rendering : Rendering} (h : w.KnowsAll rendering.args) :
    w.Evaluates (Emit.callPrintf rendering) fun _ _ => True := by
  unfold Emit.callPrintf
  refine (evaluates_string _).bind fun format w₁ hw₁ hformat => ?_
  exact .bind (evaluates_call _ _ trivial (List.forall_mem_cons.mpr ⟨hformat, h.keeps hw₁⟩)) fun _ _ _ _ =>
    .pure trivial

theorem evaluates_printValues {rendering : Rendering} (h : w.KnowsAll rendering.args) (newline : Bool)
    {owned : List (Operand × Ty)} (howned : ∀ x ∈ owned, w.Knows x.1.ref) :
    w.Evaluates (Emit.printValues rendering newline owned) fun _ _ => True := by
  unfold Emit.printValues
  refine .bind (evaluates_callPrintf (h.append (List.forall_mem_nil _))) fun _ w₁ hw₁ _ => ?_
  refine .bind (.forIn fun (value, t) hx w₂ hw₂ => ?_) fun _ _ _ _ => .pure trivial
  exact (evaluates_release t (((howned _ hx).keeps hw₁).keeps hw₂)).bind fun _ _ _ _ => .pure trivial

/-! ## Operators -/

theorem evaluates_emitCast (h : w.Knows value.ref) (how : Core.Cast) :
    w.Evaluates (Emit.emitCast value how) fun a w' => w'.Knows a.ref := by
  unfold Emit.emitCast
  cases how with
  | pointer => exact .pure h
  | int source target =>
    refine .ite ?_ (.ite ?_ (.pure h))
    all_goals exact evaluates_result _ rfl (List.forall_mem_singleton.mpr h)

theorem evaluates_promote (h : w.Knows value.ref) (t : Ty) :
    w.Evaluates (Emit.promote value t) fun a w' => w'.Knows a.ref := by
  unfold Emit.promote
  split
  · exact .ite (evaluates_result _ rfl (List.forall_mem_singleton.mpr h)) (.pure h)
  · exact evaluates_result _ rfl (List.forall_mem_singleton.mpr h)
  · exact .pure h

/-- The rounds that fill an array. What is known ahead of them is known in each of their blocks, and the position
that a round has come to where it is stored. -/
theorem evaluates_fillElements (hdata : w.Knows data.ref) (hcount : w.Knows count.ref)
    (hvalue : w.Knows value.ref) (element : Ir.Ty) :
    w.Evaluates (Emit.fillElements data count value element) fun _ _ => True := by
  unfold Emit.fillElements
  refine (evaluates_newSlot _).bind fun counter w₁ hw₁ hcounter => ?_
  refine .bind (evaluates_store trivial hcounter.knows) fun _ w₂ hw₂ _ => ?_
  have hbefore := hw₁.trans hw₂
  replace hdata := hdata.keeps hbefore
  replace hcount := hcount.keeps hbefore
  replace hvalue := hvalue.keeps hbefore
  replace hcounter := hcounter.knows.keeps hw₂
  intro hopen
  let around : Port := ⟨w₂.function.Assigned w₂.ports, False⟩
  let inside : Port := ⟨fun n => w₂.function.Assigned w₂.ports n ∨ n = w₂.function.temps + 1, False⟩
  refine .newLabel around (.newLabel inside (.newLabel around ?_))
  let u := ((w₂.taking around).taking inside).taking around
  have hu : w₂.Keeps u :=
    ((keeps_taking w₂ around hopen).trans (keeps_taking _ inside hopen)).trans (keeps_taking _ around hopen)
  have hcondition : u.Has (.numbered (w₂.labels + 1)) around :=
    ((has_taking w₂ around).extends (extends_taking _ inside)).extends (extends_taking _ around)
  have hbody : u.Has (.numbered (w₂.labels + 2)) inside :=
    (has_taking (w₂.taking around) inside).extends (extends_taking _ around)
  have hdone : u.Has (.numbered (w₂.labels + 3)) around := has_taking _ around
  -- the block of the condition
  have hdefined : ∀ n, w₂.function.Assigned w₂.ports n → n ∈ u.function.defined :=
    fun n hn => u.planned.assigned_defined (hu.assigned n hn)
  refine .place hcondition id hdefined (fun _ => hu.assigned) fun w₃ h₃ hopen₃ htemps₃ hassigned₃ _ => ?_
  have hw₃ := hu.toLeads.trans h₃
  refine .evaluating (evaluates_assign (.int 64) rfl (List.forall_mem_singleton.mpr
    (hcounter.leads hw₃ hassigned₃))) hopen₃ ?_
  rintro _ w₄ h₄ ⟨rfl, hindex⟩
  refine .evaluating (evaluates_result (.int 1) rfl (List.forall_mem_cons.mpr ⟨hindex,
    List.forall_mem_singleton.mpr ((hcount.leads hw₃ hassigned₃).keeps h₄)⟩)) h₄.active fun more w₅ h₅ hmore => ?_
  have h₃₅ := h₄.trans h₅
  have hu₅ := h₃.trans h₃₅.toLeads
  refine .ending h₅.active (List.forall_mem_singleton.mpr hmore) (List.forall_mem_cons.mpr ⟨?_,
    List.forall_mem_singleton.mpr ?_⟩) fun w₆ h₆ hclosed₆ => ?_
  · refine (hbody.extends hu₅.toExtends).admits id fun n hn => ?_
    rcases hn with hn | rfl
    · exact h₃₅.assigned n (hassigned₃ n hn)
    · exact htemps₃ ▸ hindex.keeps h₅
  · exact (hdone.extends hu₅.toExtends).admits id fun n hn => h₃₅.assigned n (hassigned₃ n hn)
  have hu₆ := hu₅.trans h₆
  -- the block of a round
  refine .place (hbody.extends hu₆.toExtends) id (fun n hn => ?_) (fun hopen₆ => ?_)
    fun w₇ h₇ hopen₇ _ hassigned₇ _ => ?_
  · rcases hn with hn | rfl
    · exact hu₆.defined n (hdefined n hn)
    · exact h₆.defined _ (w₅.planned.assigned_defined (htemps₃ ▸ hindex.keeps h₅))
  · exact absurd (hopen₆.symm.trans hclosed₆) Bool.false_ne_true
  have hw₇ := hu.toLeads.trans (hu₆.trans h₇)
  have hkept₇ : ∀ n, w₂.function.Assigned w₂.ports n → w₇.function.Assigned w₇.ports n :=
    fun n hn => hassigned₇ n (.inl hn)
  have hindex₇ : w₇.Knows (.temp (w₃.function.temps + 1)) := hassigned₇ _ (.inr (by rw [htemps₃]; rfl))
  refine .evaluating (evaluates_result .ptr rfl (List.forall_mem_cons.mpr ⟨hdata.leads hw₇ hkept₇,
    List.forall_mem_singleton.mpr hindex₇⟩)) hopen₇ fun address w₈ h₈ haddress => ?_
  refine .evaluating (evaluates_store ((hvalue.leads hw₇ hkept₇).keeps h₈) haddress) h₈.active
    fun _ w₉ h₉ _ => ?_
  refine .evaluating (evaluates_result (.int 64) rfl (List.forall_mem_cons.mpr
    ⟨(hindex₇.keeps h₈).keeps h₉, List.forall_mem_singleton.mpr trivial⟩)) h₉.active fun next w₁₀ h₁₀ hnext => ?_
  have h₇₁₀ := (h₈.trans h₉).trans h₁₀
  refine .evaluating (evaluates_store hnext ((hcounter.leads hw₇ hkept₇).keeps h₇₁₀)) h₁₀.active
    fun _ w₁₁ h₁₁ _ => ?_
  have h₇₁₁ := h₇₁₀.trans h₁₁
  have hu₁₁ := (hu₆.trans h₇).trans h₇₁₁.toLeads
  refine .ending h₁₁.active (List.forall_mem_nil _) (List.forall_mem_singleton.mpr
    ((hcondition.extends hu₁₁.toExtends).admits id fun n hn => h₇₁₁.assigned n (hkept₇ n hn)))
    fun w₁₂ h₁₂ hclosed₁₂ => ?_
  -- behind the rounds
  have hu₁₂ := hu₁₁.trans h₁₂
  refine (flows_placeLabel (hdone.extends hu₁₂.toExtends) id (fun n hn => hu₁₂.defined n (hdefined n hn))
    fun hopen₁₂ => ?_).mono (fun _ => id) ?_
  · exact absurd (hopen₁₂.symm.trans hclosed₁₂) Bool.false_ne_true
  · rintro _ w₁₃ h₁₃ ⟨hopen₁₃, hblock, -, hassigned₁₃⟩
    refine ⟨⟨hu.toLeads.trans (hu₁₂.trans h₁₃), hopen₁₃, hassigned₁₃, .inr ?_⟩, trivial⟩
    rw [hblock]
    exact w₂.not_within (by omega)

theorem evaluates_fillArray (hcount : w.Knows count.ref) (hvalue : w.Knows value.ref) (element t : Ty)
    (heap : Bool) : w.Evaluates (Emit.fillArray count value element t heap) fun a w' => w'.Knows a.ref := by
  unfold Emit.fillArray
  refine .reading fun elementType _ => ?_
  cases heap with
  | true =>
    refine .reading fun size _ => ?_
    refine .bind (evaluates_result (.int 64) rfl (List.forall_mem_cons.mpr
      ⟨hcount, List.forall_mem_singleton.mpr trivial⟩)) fun bytes w₁ h₁ hbytes => ?_
    refine (evaluates_allocate hbytes).bind fun start w₂ h₂ hstart => ?_
    refine .bind (evaluates_fillElements hstart ((hcount.keeps h₁).keeps h₂) ((hvalue.keeps h₁).keeps h₂) _)
      fun _ w₃ h₃ _ => ?_
    exact .pure (hstart.keeps h₃)
  | false =>
    refine .reading fun type _ => (evaluates_newSlot type).bind fun start w₁ h₁ hstart => ?_
    refine .bind (evaluates_fillElements hstart.knows (hcount.keeps h₁) (hvalue.keeps h₁) _) fun _ w₂ h₂ _ => ?_
    exact evaluates_load type (hstart.knows.keeps h₂)

theorem evaluates_placeAggregate (h : w.Knows aggregate.ref) (size : Emit Nat) [Reading size] (heap : Bool) :
    w.Evaluates (Emit.placeAggregate aggregate size heap) fun a w' => w'.Knows a.ref := by
  unfold Emit.placeAggregate
  exact .ite (.reading fun n _ => evaluates_heapCopy h n) (.pure h)

section

variable {left right : Emit Operand} (hleft : w.Evaluates left fun a w' => w'.Knows a.ref)
  (hright : ∀ w', w.Keeps w' → w'.Evaluates right fun a w'' => w''.Knows a.ref)

include hleft hright

theorem evaluates_bothOperands (t : Ty) {instr : Operand → Ref → Ir.Instr}
    (hphi : ∀ a b, (instr a b).incoming? = none) (hrefs : ∀ a b, (instr a b).refs = [a.ref, b]) :
    w.Evaluates (Emit.bothOperands t instr left right) fun a w' => w'.Knows a.ref := by
  unfold Emit.bothOperands
  refine hleft.bind fun a w₁ h₁ ha => (hright w₁ h₁).bind fun b w₂ h₂ hb => .reading fun type _ => ?_
  refine evaluates_result type (hphi a b.ref) ?_
  rw [hrefs]
  exact List.forall_mem_cons.mpr ⟨ha.keeps h₂, List.forall_mem_singleton.mpr hb⟩

end

/-! ## Values of blocks that come together -/

/-- The block of a label will have a `phi`. So far only one block jumps to it, which is complete. -/
structure Awaits (w : Site) (name source : Label) : Prop where
  settles : w.Settles name
  fresh : name ∉ w.function.placed
  jumps : ∀ x, (x, name) ∈ w.function.layout.jumps ↔ x = source
  closed : ∃ b ∈ w.function.layout.closed, b.name = source

theorem Awaits.leads {w' : Site} {name source : Label} (h : w.Awaits name source) (hw : w.Leads w') :
    w'.Awaits name source where
  settles := h.settles.extends hw.toExtends
  fresh hname := (hw.sparesPlaced name hname).elim h.fresh fun hnot => hnot h.settles
  jumps x := by
    constructor
    · intro hx
      exact (h.jumps x).mp ((hw.sparesJumps _ hx).resolve_right fun hnot => hnot h.settles)
    · exact fun hx => hw.jumps _ ((h.jumps x).mpr hx)
  closed := by
    obtain ⟨b, hb, hname⟩ := h.closed
    exact ⟨b, hw.closed b hb, hname⟩

/-- The label that is taken after the next one, for the block of a `phi`. -/
def joint (w : Site) : Label := .numbered (w.labels + 2)

/-- Two labels are taken, for a block without and for one with a `phi`. What is known is known in both. -/
def forking (w : Site) : Site :=
  (w.taking ⟨w.function.Assigned w.ports, False⟩).taking ⟨w.function.Assigned w.ports, True⟩

theorem keeps_forking (hopen : w.function.terminated = false) : w.Keeps w.forking :=
  (keeps_taking w _ hopen).trans (keeps_taking _ _ hopen)

theorem fork_has (w : Site) :
    w.forking.Has (.numbered (w.labels + 1)) ⟨w.function.Assigned w.ports, False⟩ :=
  (has_taking w _).extends (extends_taking _ _)

theorem joint_has (w : Site) : w.forking.Has w.joint ⟨w.function.Assigned w.ports, True⟩ := has_taking _ _

/-- Nothing has jumped to a label that was not taken. -/
theorem not_mem_jumps {source : Label} {k : Nat} (hk : w.labels < k) :
    (source, .numbered k) ∉ w.function.layout.jumps :=
  fun h => w.not_within hk (w.planned.targets _ h)

theorem not_mem_placed {k : Nat} (hk : w.labels < k) : .numbered k ∉ w.function.placed :=
  fun h => w.not_within hk (w.planned.names _ h)

/-- The open block ends with jumps to the block that goes on and to the one that will have a `phi`. -/
theorem exists_fork (terminator : Terminator) (hopen : w.function.terminated = false)
    (hrefs : ∀ r ∈ terminator.refs, w.Knows r)
    (htargets : ∀ target, target ∈ terminator.targets ↔ target = .numbered (w.labels + 1) ∨ target = w.joint) :
    ∃ (w₁ w' : Site), build (Build.terminate terminator) w.forking.state = .ok ⟨⟩ w₁.state ∧
      build (Build.placeLabel (.numbered (w.labels + 1))) w₁.state = .ok ⟨⟩ w'.state ∧
      w.Keeps w' ∧ w'.labels = w.labels + 2 ∧ .numbered (w.labels + 1) ∈ w'.function.placed ∧
      w'.function.block = .numbered (w.labels + 1) ∧ w'.Awaits w.joint w.function.block ∧
      (w'.ports w.joint).known = w.function.Assigned w.ports := by
  have hkeeps := keeps_forking hopen
  have hports {target : Label} (htarget : target ∈ terminator.targets) :
      target.Within w.forking.start w.forking.labels ∧
        (w.forking.ports target).known = w.function.Assigned w.ports := by
    rcases (htargets target).mp htarget with rfl | rfl
    · exact ⟨w.fork_has.1, congrArg Port.known w.fork_has.2⟩
    · exact ⟨w.joint_has.1, congrArg Port.known w.joint_has.2⟩
  have hnew {target : Label} (htarget : target ∈ terminator.targets) : ¬target.Within w.start w.labels := by
    rcases (htargets target).mp htarget with rfl | rfl <;> exact w.not_within (by omega)
  let w₁ := w.forking.ending terminator hopen
    ⟨fun r hr => (hrefs r hr).keeps hkeeps, fun target htarget n hn =>
      hkeeps.assigned n ((hports htarget).2 ▸ hn)⟩
    (fun target htarget => (hports htarget).1)
    fun target htarget hplaced => absurd (w.planned.names _ hplaced) (hnew htarget)
  have hdefined : ∀ n, (w₁.ports (.numbered (w.labels + 1))).known n → n ∈ w₁.function.defined := by
    intro n hn
    have hknown : w.function.Assigned w.ports n := (hports ((htargets _).mpr (.inl rfl))).2 ▸ hn
    exact extends_ending.defined n (hkeeps.defined n (w.planned.assigned_defined hknown))
  let w' := w₁.starting (w.labels + 1) rfl w.fork_has.1 hdefined
  have hbehind : w.Keeps w' :=
    { toLeads := (hkeeps.toLeads.ending fun target htarget hsettles => hnew htarget hsettles.1).starting
        fun hsettles => w.not_within (Nat.lt_succ_self _) hsettles.1
      active := rfl
      assigned := fun n hn => assigned_starting.mpr (.inr ((hports ((htargets _).mpr (.inl rfl))).2 ▸ hn))
      block := .inr (w.not_within (Nat.lt_succ_self _)) }
  have hplaced : w'.function.placed = w.function.placed ++ [.numbered (w.labels + 1)] :=
    placed_starting.trans (congrArg (· ++ _) placed_ending)
  have hjumps : w'.function.layout.jumps =
      w.function.layout.jumps ++ terminator.targets.map (w.function.block, ·) := jumps_starting.trans jumps_ending
  have hlayout : w'.function.layout = w₁.function.layout.add (.label (.numbered (w.labels + 1))) :=
    layout_starting
  have hawaits : w'.Awaits w.joint w.function.block := by
    refine ⟨⟨w.joint_has.1, ?_⟩, ?_, fun x => ?_, w₁.function.layout.last, ?_, w₁.planned.block⟩
    · show (w.forking.ports w.joint).merges
      rw [w.joint_has.2]
      trivial
    · rw [hplaced, List.mem_append, List.mem_singleton]
      rintro (hold | hsame)
      · exact w.not_mem_placed (by omega) hold
      · injection hsame with hsame
        omega
    · rw [hjumps, List.mem_append, List.mem_map]
      constructor
      · rintro (hold | ⟨target, -, hsame⟩)
        · exact absurd hold (w.not_mem_jumps (by omega))
        · exact (Prod.mk.inj hsame).1.symm
      · rintro rfl
        exact .inr ⟨w.joint, (htargets _).mpr (.inr rfl), rfl⟩
    · rw [hlayout]
      exact List.mem_append_right _ (List.mem_singleton_self _)
  refine ⟨w₁, w', ?_, ?_, hbehind, rfl, mem_placed_starting, rfl, hawaits, congrArg Port.known w.joint_has.2⟩
  · rw [build_apply, Build.terminate_open w.forking.isOpen hopen]
    rfl
  · rw [build_apply, Build.placeLabel_closed w₁.isOpen rfl]
    rfl

/-- The block that has a `phi` is started, which merges a truth value with what the open block makes. -/
theorem exists_joint {k : Nat} {source : Label} {r : Ref} (h : w.Awaits (.numbered k) source)
    (hopen : w.function.terminated = false) (hsource : source ≠ w.function.block)
    (hknown : ∀ n, (w.ports (.numbered k)).known n → w.function.Assigned w.ports n) (hr : w.Knows r)
    (decided : Bool) :
    ∃ (w₁ w' : Site) (a : Operand), build (Build.placeLabel (.numbered k)) w.state = .ok ⟨⟩ w₁.state ∧
      build (Build.result (.int 1) (.phi (.int 1) [(.bool decided, source), (r, w.function.block)])) w₁.state =
        .ok a w'.state ∧
      w.Extends w' ∧ (∀ u : Site, u.Leads w → ¬u.Settles (.numbered k) → u.Leads w') ∧ w'.function.terminated = false ∧
      w'.labels = w.labels ∧ .numbered k ∈ w'.function.placed ∧ w'.function.block = .numbered k ∧
      (∀ n, (w.ports (.numbered k)).known n → w'.function.Assigned w'.ports n) ∧ w'.Knows a.ref := by
  let w₀ := w.ending (.br (.numbered k)) hopen
    ⟨List.forall_mem_nil _, List.forall_mem_singleton.mpr hknown⟩
    (List.forall_mem_singleton.mpr h.settles.1)
    (List.forall_mem_singleton.mpr fun hplaced => absurd hplaced h.fresh)
  let w₁ := w₀.starting k rfl h.settles.1 fun n hn =>
    extends_ending.defined n (w.planned.assigned_defined (hknown n hn))
  have hjumps : w₁.function.layout.jumps = w.function.layout.jumps ++ [(w.function.block, .numbered k)] :=
    jumps_starting.trans jumps_ending
  have hlayout : w₁.function.layout = w₀.function.layout.add (.label (.numbered k)) := layout_starting
  have hclosed : w₁.function.layout.closed = w.function.layout.closed ++ [w₀.function.layout.last] := by
    have hended : w₀.function.layout = w.function.layout.add (.leave (.br (.numbered k))) := layout_ending
    rw [hlayout]
    show w₀.function.layout.closed ++ [w₀.function.layout.last] = _
    rw [congrArg Layout.closed hended]
    rfl
  have hmerges : (w₁.function.plan w₁.ports).Merges w₁.function.layout w₁.function.block
      [(.bool decided, source), (r, w.function.block)] := by
    refine ⟨h.settles.2, by simpa using hsource, fun x => ?_, List.forall_mem_cons.mpr
      ⟨?_, List.forall_mem_singleton.mpr ⟨w₀.function.layout.last, ?_, w₀.planned.block, ?_⟩⟩⟩
    · show x ∈ [source, w.function.block] ↔ (x, .numbered k) ∈ w₁.function.layout.jumps
      rw [hjumps, List.mem_append, h.jumps, List.mem_cons]
      simp
    · obtain ⟨b, hb, hname⟩ := h.closed
      exact ⟨b, hclosed ▸ List.mem_append_left _ hb, hname, trivial⟩
    · rw [hclosed]
      exact List.mem_append_right _ (List.mem_singleton_self _)
    · exact hr.mono fun n => assigned_ending
  have hmerged : ∀ incoming, (Line.result (w₁.function.temps + 1) (.phi (.int 1)
      [(.bool decided, source), (r, w.function.block)])).incoming? = some incoming →
      (w₁.function.plan w₁.ports).Merges w₁.function.layout w₁.function.block incoming :=
    fun incoming hincoming => Option.some.inj hincoming ▸ hmerges
  let w' := w₁.adding _ (w₁.function.temps + 1) rfl rfl ⟨List.forall_mem_nil _, List.forall_mem_nil _⟩ hmerged
  refine ⟨w₁, w', ⟨.int 1, .temp (w₁.function.temps + 1)⟩, ?_, ?_,
    (extends_ending.trans extends_starting).trans keeps_adding.toExtends, fun u hu hfree => ?_, rfl, rfl, ?_, rfl,
    fun n hn => ?_, ?_⟩
  · rw [build_apply, Build.placeLabel_open w.isOpen hopen]
    rfl
  · rw [build_apply, Build.result_open w₁.isOpen rfl]
    rfl
  · have hended : u.Leads w₀ := hu.ending (List.forall_mem_singleton.mpr hfree)
    exact (hended.starting hfree).trans keeps_adding.toLeads
  · exact keeps_adding.placed _ mem_placed_starting
  · exact assigned_adding (.inl (assigned_starting.mpr (.inr hn)))
  · exact assigned_adding (.inr rfl)

theorem currentLabel_state (w : Site) : w.state.builder.currentLabel = w.function.block := by
  rw [Builder.currentLabel, w.isOpen]

/-- A value that the left operand decides, or the right one in a block of its own. -/
theorem evaluates_shortCircuit {left right : Emit Operand} (hleft : w.Evaluates left fun a w' => w'.Knows a.ref)
    (hright : ∀ w', w.Keeps w' → w'.Evaluates right fun a w'' => w''.Knows a.ref) (decided : Bool) :
    w.Evaluates (Emit.shortCircuit decided left right) fun a w' => w'.Knows a.ref := by
  intro hopen value t hrun
  obtain ⟨a, s, ha, hrun⟩ := Run.bind_eq_ok.mp hrun
  obtain ⟨w₁, rfl, -, hplaced₁, h₁, ha⟩ := hleft hopen ha
  let other := Label.numbered (w₁.labels + 1)
  let test := if decided then Terminator.condBr a w₁.joint other else .condBr a other w₁.joint
  have hcode : (do
      build (Build.terminate test)
      build (Build.placeLabel other)
      let b ← right
      let fromRight := (← get).builder.currentLabel
      build (Build.placeLabel w₁.joint)
      build (Build.result (.int 1)
        (.phi (.int 1) [(.bool decided, w₁.function.block), (b.ref, fromRight)])) : Emit Operand)
      w₁.forking.state = .ok value t := by
    rw [← w₁.currentLabel_state]
    cases decided <;> exact hrun
  have hrefs : ∀ r ∈ test.refs, w₁.Knows r := by
    cases decided <;> exact List.forall_mem_singleton.mpr ha
  have htargets : ∀ target, target ∈ test.targets ↔ target = other ∨ target = w₁.joint := by
    intro target
    cases decided with
    | false => exact List.mem_pair
    | true => exact List.mem_pair.trans or_comm
  obtain ⟨w₂, w₃, hend, hstart, h₃, hlabels₃, hplaced₃, hblock₃, hawaits, hknown⟩ :=
    exists_fork test h₁.active hrefs htargets
  obtain ⟨_, _, hended, hcode⟩ := Run.bind_eq_ok.mp hcode
  obtain ⟨-, rfl⟩ := Outcome.ok.inj (hend.symm.trans hended)
  obtain ⟨_, _, hstarted, hcode⟩ := Run.bind_eq_ok.mp hcode
  obtain ⟨-, rfl⟩ := Outcome.ok.inj (hstart.symm.trans hstarted)
  obtain ⟨b, _, hb, hcode⟩ := Run.bind_eq_ok.mp hcode
  obtain ⟨w₄, rfl, -, hplaced₄, h₄, hb⟩ := hright w₃ (h₁.trans h₃) h₃.active hb
  obtain ⟨_, _, hget, hcode⟩ := Run.bind_eq_ok.mp hcode
  cases hget
  rw [currentLabel_state] at hcode
  have hsource : w₁.function.block ≠ w₄.function.block := by
    intro hsame
    have hbefore := w₁.planned.block_within
    rcases h₄.block with hblock | hblock
    · rw [hsame, hblock, hblock₃] at hbefore
      exact w₁.not_within (Nat.lt_succ_self _) hbefore
    · exact hblock (hsame ▸ h₃.within hbefore)
  have hport : (w₄.ports w₁.joint).known = w₁.function.Assigned w₁.ports := by
    rw [h₄.ports _ hawaits.settles.1, hknown]
  have hassigned : ∀ n, (w₄.ports w₁.joint).known n → w₄.function.Assigned w₄.ports n :=
    fun n hn => h₄.assigned n (h₃.assigned n (hport ▸ hn))
  obtain ⟨w₅, w₆, c, hstart', hphi, h₆, hleads, hopen₆, hlabels₆, hplaced₆, hblock₆, hassigned₆, hc⟩ :=
    exists_joint (hawaits.leads h₄.toLeads) h₄.active hsource hassigned hb decided
  obtain ⟨_, _, hstarted', hcode⟩ := Run.bind_eq_ok.mp hcode
  obtain ⟨-, rfl⟩ := Outcome.ok.inj (hstart'.symm.trans hstarted')
  obtain ⟨rfl, rfl⟩ := Outcome.ok.inj (hphi.symm.trans hcode)
  have hnew {u : Site} (hu : u.labels ≤ w₁.labels) : ¬u.Settles w₁.joint :=
    fun h => u.not_within (Nat.lt_add_right 1 (Nat.lt_succ_of_le hu)) h.1
  have h₁₄ := h₃.toLeads.trans h₄.toLeads
  have h₁₆ : w₁.Leads w₆ := hleads w₁ h₁₄ (hnew (Nat.le_refl _))
  have hw : w.Leads w₆ := hleads w (h₁.toLeads.trans h₁₄) (hnew h₁.labels)
  refine ⟨w₆, rfl, hw, fun k hk => ?_, ⟨hw, hopen₆, fun n hn => hassigned₆ n (hport ▸ h₁.assigned n hn), .inr ?_⟩,
    hc⟩
  · obtain ⟨hlo, hhi⟩ := hk.resolve_left List.not_mem_nil
    rw [hlabels₆] at hhi
    -- the labels of the left operand, the two that were taken, and those of the right operand
    by_cases hleft₁ : k ≤ w₁.labels
    · exact h₁₆.placed _ (hplaced₁ k (.inr ⟨hlo, hleft₁⟩))
    by_cases hother : k = w₁.labels + 1
    · exact h₆.placed _ (h₄.placed _ (hother ▸ hplaced₃))
    by_cases hjoint : k = w₁.labels + 2
    · exact hjoint ▸ hplaced₆
    · exact h₆.placed _ (hplaced₄ k (.inr ⟨by omega, hhi⟩))
  · rw [hblock₆]
    have := h₁.labels
    exact w.not_within (by omega)

/-! ## Expressions -/

mutual

theorem evaluates_emitExpr : ∀ (e : Core.Expr) {w : Site}, w.Evaluates (Emit.emitExpr e) fun a w' => w'.Knows a.ref
  | .mk kind t constant span, w => by
    unfold Emit.emitExpr
    split
    · exact evaluates_constantOperand _ t
    · exact evaluates_emitKind t span kind

theorem evaluates_emitKind (t : Ty) (span : Span) : ∀ (kind : Core.ExprKind) {w : Site},
    w.Evaluates (Emit.emitKind t span kind) fun a w' => w'.Knows a.ref
  | .int n, w => by
    unfold Emit.emitKind
    exact .reading fun type _ => .pure trivial
  | .bool b, w => by
    unfold Emit.emitKind
    exact .pure trivial
  | .str text, w => by
    unfold Emit.emitKind
    exact evaluates_string text
  | .load place, w => by
    unfold Emit.emitKind
    exact (evaluates_emitPlace place).bind fun address w₁ _ haddress => .reading fun type _ =>
      evaluates_load type haddress
  | .function id, w => by
    unfold Emit.emitKind
    exact (evaluates_symbolOf id).bind fun symbol w₁ _ hsymbol => .pure hsymbol
  | .call callee args, w => by
    unfold Emit.emitKind
    split
    · refine (evaluates_emitExpr callee).bind fun target w₁ h₁ htarget => ?_
      refine (evaluates_emitArguments _ args).bind fun values w₂ h₂ hvalues => .reading fun c _ => ?_
      exact evaluates_call _ _ (htarget.keeps h₂) hvalues
    · exact .reject
  | .macroCall id args, w => by
    unfold Emit.emitKind
    refine .reading fun c _ => ?_
    dsimp only
    split
    · exact .reject
    · exact evaluates_emitMacro _ span args
  | .binary op left right, w => by
    unfold Emit.emitKind
    have hright (w' : Site) (_ : w.Keeps w') := evaluates_emitExpr right (w := w')
    split
    · exact evaluates_bothOperands (evaluates_emitExpr left) hright t (fun _ _ => rfl) fun _ _ => rfl
    · exact evaluates_bothOperands (evaluates_emitExpr left) hright t (fun _ _ => rfl) fun _ _ => rfl
    · exact evaluates_shortCircuit (evaluates_emitExpr left) hright _
  | .unary op operand, w => by
    unfold Emit.emitKind
    refine (evaluates_emitExpr operand).bind fun value w₁ _ hvalue => ?_
    cases op with
    | neg => exact evaluates_result _ rfl (List.forall_mem_cons.mpr ⟨trivial, List.forall_mem_singleton.mpr hvalue⟩)
    | not => exact evaluates_result _ rfl (List.forall_mem_cons.mpr ⟨hvalue, List.forall_mem_singleton.mpr trivial⟩)
  | .address place, w => by
    unfold Emit.emitKind
    exact evaluates_emitPlace place
  | .cast value how, w => by
    unfold Emit.emitKind
    exact (evaluates_emitExpr value).bind fun a w₁ _ ha => evaluates_emitCast ha how
  | .extract base index, w => by
    unfold Emit.emitKind
    exact (evaluates_emitExpr base).bind fun aggregate w₁ _ haggregate => .reading fun type _ =>
      evaluates_extract type haggregate index
  | .structInit id values heap, w => by
    unfold Emit.emitKind
    exact .reading fun c _ => .bind (evaluates_emitAggregate _ 0 values trivial) fun aggregate w₁ _ haggregate =>
      evaluates_placeAggregate haggregate _ heap
  | .arrayInit element values heap, w => by
    unfold Emit.emitKind
    exact .reading fun type _ => .bind (evaluates_emitAggregate _ 0 values trivial) fun aggregate w₁ _ haggregate =>
      evaluates_placeAggregate haggregate _ heap
  | .arrayFill element size value heap, w => by
    unfold Emit.emitKind
    refine (evaluates_emitExpr size).bind fun count w₁ _ hcount => ?_
    exact (evaluates_emitExpr value).bind fun content w₂ h₂ hcontent =>
      evaluates_fillArray (hcount.keeps h₂) hcontent element t heap
  | .new value, w => by
    unfold Emit.emitKind
    exact .reading fun size _ => (evaluates_emitExpr value).bind fun a w₁ _ ha => evaluates_heapCopy ha size

theorem evaluates_emitMacro (intrinsic : Intrinsic) (span : Span) : ∀ (args : List Core.Expr) {w : Site},
    w.Evaluates (Emit.emitMacro intrinsic span args) fun a w' => w'.Knows a.ref
  | [], w => by
    unfold Emit.emitMacro
    exact .reject
  | format :: values, w => by
    unfold Emit.emitMacro
    refine .reading fun pieces _ => (evaluates_emitPieces pieces values).bind fun rendered w₁ _ hrendered => ?_
    exact (evaluates_printValues hrendered.1 _ hrendered.2).bind fun _ w₂ _ _ => .pure trivial

theorem evaluates_emitArguments (fixed : Nat) : ∀ (args : List Core.Expr) {w : Site},
    w.Evaluates (Emit.emitArguments fixed args) fun values w' => ∀ a ∈ values, w'.Knows a.ref
  | [], w => by
    unfold Emit.emitArguments
    exact .pure (List.forall_mem_nil _)
  | arg :: rest, w => by
    have hrest {passed : Operand} {w₁ : Site} (hpassed : w₁.Knows passed.ref) :
        w₁.Evaluates (do return passed :: (← Emit.emitArguments (fixed - 1) rest))
          fun values w' => ∀ a ∈ values, w'.Knows a.ref :=
      (evaluates_emitArguments (fixed - 1) rest).bind fun values w₂ h₂ hvalues =>
        .pure (List.forall_mem_cons.mpr ⟨hpassed.keeps h₂, hvalues⟩)
    unfold Emit.emitArguments
    refine (evaluates_emitExpr arg).bind fun value w₁ _ hvalue => .ite ?_ ?_
    · exact (evaluates_promote hvalue arg.type).bind fun passed w₂ _ hpassed => hrest hpassed
    · exact hrest hvalue

theorem evaluates_emitAggregate (aggregate : Operand) (index : Nat) : ∀ (values : List Core.Expr) {w : Site},
    w.Knows aggregate.ref → w.Evaluates (Emit.emitAggregate aggregate index values) fun a w' => w'.Knows a.ref
  | [], w, h => by
    unfold Emit.emitAggregate
    exact .pure h
  | part :: rest, w, h => by
    unfold Emit.emitAggregate
    refine (evaluates_emitExpr part).bind fun value w₁ h₁ hvalue => ?_
    refine .bind (evaluates_result _ rfl (List.forall_mem_cons.mpr
      ⟨h.keeps h₁, List.forall_mem_singleton.mpr hvalue⟩)) fun next w₂ _ hnext => ?_
    exact evaluates_emitAggregate next (index + 1) rest hnext

theorem evaluates_emitPieces (pieces : List String) : ∀ (values : List Core.Expr) {w : Site},
    w.Evaluates (Emit.emitPieces pieces values) fun r w' => w'.KnowsAll r.1.args ∧ ∀ x ∈ r.2, w'.Knows x.1.ref
  | [], w => by
    unfold Emit.emitPieces
    exact .pure ⟨knowsAll_plain _, List.forall_mem_nil _⟩
  | value :: rest, w => by
    unfold Emit.emitPieces
    refine (evaluates_emitExpr value).bind fun operand w₁ _ hoperand => ?_
    refine (evaluates_render hoperand _ _).bind fun shown w₂ h₂ hshown => ?_
    refine (evaluates_emitPieces pieces.tail rest).bind fun rendered w₃ h₃ hrendered => .pure ⟨?_, ?_⟩
    · exact ((knowsAll_plain _).append (hshown.keeps h₃)).append hrendered.1
    · refine List.forall_mem_append.mpr ⟨?_, hrendered.2⟩
      split
      · exact List.forall_mem_nil _
      · exact List.forall_mem_singleton.mpr ((hoperand.keeps h₂).keeps h₃)

theorem evaluates_emitPlace : ∀ (place : Core.Place) {w : Site},
    w.Evaluates (Emit.emitPlace place) fun a w' => w'.Knows a.ref
  | .mk kind t _ _, w => by
    unfold Emit.emitPlace
    exact evaluates_emitPlaceKind t kind

theorem evaluates_emitPlaceKind (t : Ty) : ∀ (kind : Core.PlaceKind) {w : Site},
    w.Evaluates (Emit.emitPlaceKind t kind) fun a w' => w'.Knows a.ref
  | .slot id, w => by
    unfold Emit.emitPlaceKind
    exact (evaluates_slot id).bind fun found w₁ _ hfound => .pure hfound
  | .global id, w => by
    unfold Emit.emitPlaceKind
    exact (evaluates_symbolOf id).bind fun symbol w₁ _ hsymbol => .pure hsymbol
  | .deref pointer, w => by
    unfold Emit.emitPlaceKind
    exact evaluates_emitExpr pointer
  | .field base id index, w => by
    unfold Emit.emitPlaceKind
    refine (evaluates_emitExpr base).bind fun pointer w₁ _ hpointer => .reading fun c _ => ?_
    refine evaluates_result .ptr rfl (List.forall_mem_cons.mpr ⟨hpointer, List.forall_mem_cons.mpr
      ⟨trivial, List.forall_mem_singleton.mpr trivial⟩⟩)
  | .element data index, w => by
    unfold Emit.emitPlaceKind
    refine (evaluates_emitExpr data).bind fun pointer w₁ _ hpointer => ?_
    refine (evaluates_emitExpr index).bind fun position w₂ h₂ hposition => .reading fun type _ => ?_
    exact evaluates_result .ptr rfl (List.forall_mem_cons.mpr
      ⟨hpointer.keeps h₂, List.forall_mem_singleton.mpr hposition⟩)

end

end Site

end OwnLang
