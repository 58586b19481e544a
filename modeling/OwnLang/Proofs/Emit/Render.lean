import Mathlib
import OwnLang.Emit.Format
import OwnLang.Proofs.Check.Containment

/-!
# Rendering ends

A struct is shown by its fields. Containment by value has no cycle, so this ends, however deep
structs are nested: the bound on the nesting of structs in `Emit.render` is never reached.
-/

namespace OwnLang.Emit

open Ir (Operand)

/-- A part of emission that comes to an end in a program, and stays with the program. -/
def Answers {α : Type} (c : Context) (e : Emit α) : Prop :=
  ∀ s, s.context = c → (∀ why, e s ≠ .stopped why) ∧ ∀ t, e.Ends s t → t.context = c

variable {α β : Type} {c : Context} {e : Emit α} {f : α → Emit β}

theorem answers_pure (a : α) : Answers c (pure a : Emit α) := by
  intro s hs
  refine ⟨fun why => nofun, fun t ht => ?_⟩
  rcases ht with ⟨_, ht⟩ | ⟨_, ht⟩ <;> cases ht
  exact hs

theorem answers_reject (cause : Cause) (span : Span) :
    Answers c (Run.reject cause span : Emit α) := by
  intro s hs
  refine ⟨fun why => nofun, fun t ht => ?_⟩
  rcases ht with ⟨_, ht⟩ | ⟨_, ht⟩ <;> cases ht
  exact hs

theorem answers_build (step : Ir.Build α) : Answers c (build step) := by
  intro s hs
  refine ⟨fun why => nofun, fun t ht => ?_⟩
  rcases ht with ⟨_, ht⟩ | ⟨_, ht⟩ <;> cases ht
  exact hs

theorem Answers.bind (he : Answers c e) (hf : ∀ a, Answers c (f a)) : Answers c (e >>= f) := by
  intro s hs
  obtain ⟨hanswer, hcontext⟩ := he s hs
  refine ⟨fun why hstop => ?_, fun t ht => ?_⟩
  · rw [Run.bind_apply] at hstop
    cases hx : e s with
    | ok a s₁ =>
      rw [hx] at hstop
      exact (hf a s₁ (hcontext s₁ (Run.ends_of_ok hx))).1 why hstop
    | error d s₁ => simp [hx] at hstop
    | stopped why' => exact hanswer why' hx
  · rcases Run.ends_bind ht with ht | ⟨a, s₁, hx, ht⟩
    · exact hcontext t ht
    · exact (hf a s₁ (hcontext s₁ (Run.ends_of_ok hx))).2 t ht

/-- What goes on with the program goes on with this one. -/
theorem answers_context_bind {k : Context → Emit β} (h : Answers c (k c)) :
    Answers c (context >>= k) := by
  intro s hs
  have hsame : (context >>= k) s = k c s := by rw [← hs]; rfl
  unfold Run.Ends
  rw [hsame]
  exact h s hs

theorem answers_irType (t : Ty) : Answers c (irType t) := answers_context_bind (answers_pure _)

theorem answers_symbolOf (id : GlobalId) : Answers c (symbolOf id) :=
  answers_context_bind (answers_pure _)

theorem answers_mapM {l : List α} (h : ∀ a ∈ l, Answers c (f a)) : Answers c (l.mapM f) := by
  induction l with
  | nil => exact answers_pure _
  | cons a l ih =>
    rw [List.mapM_cons]
    exact (h a List.mem_cons_self).bind fun _ =>
      (ih fun b hb => h b (List.mem_cons_of_mem _ hb)).bind fun _ => answers_pure _

theorem answers_renderPointer (value : Operand) (t : Ty) (span : Span) :
    Answers c (renderPointer value t span) := by
  unfold renderPointer
  refine answers_context_bind ?_
  split
  · exact answers_reject _ _
  · exact (answers_symbolOf _).bind fun _ => (answers_build _).bind fun _ => answers_pure _

theorem answers_boolText (value : Operand) : Answers c (boolText value) :=
  (answers_build _).bind fun _ => (answers_build _).bind fun _ => answers_build _

/-- A value is rendered if the struct that it holds is. -/
theorem answers_renderGiven {renderStruct : StructId → Operand → Emit Rendering} {span : Span}
    {value : Operand} {t : Ty}
    (h : ∀ id value, t.heldStruct? = some id → Answers c (renderStruct id value)) :
    Answers c (renderGiven renderStruct span value t) := by
  induction value, t using renderGiven.induct with
  | case1 | case2 => exact answers_pure _
  | case3 value width writtenAs h64 h32 =>
    rw [renderGiven]
    · exact (answers_build _).bind fun _ => answers_pure _
    · exact h64
    · exact h32
  | case4 => exact (answers_boolText _).bind fun _ => answers_pure _
  | case5 value element constant size writtenAs ih =>
    refine (answers_irType _).bind fun type =>
      (answers_mapM fun index _ => ?_).bind fun _ => answers_pure _
    exact (answers_build _).bind fun part => ih part h
  | case6 value id name writtenAs => exact h id value rfl
  | case7 value t h64 h32 hint hbool harray hstruct hstring =>
    rw [renderGiven, if_pos hstring]
    · exact answers_pure _
    all_goals assumption
  | case8 value t h64 h32 hint hbool harray hstruct hstring =>
    rw [renderGiven, if_neg hstring]
    · exact answers_renderPointer _ _ _
    all_goals assumption

theorem answers_renderField {renderTy : Operand → Ty → Emit Rendering} {field : Field}
    (h : ∀ value, Answers c (renderTy value field.type)) (value : Operand) (index : Nat) :
    Answers c (renderField renderTy value field index) :=
  (answers_irType _).bind fun _ => (answers_build _).bind fun part => (h part).bind fun _ =>
    answers_pure _

/-- A struct is rendered where the bound on the nesting is larger than its place in the order. -/
theorem answers_renderStructTo {order : List StructId} (hc : c.CompletedIn order) (span : Span)
    {n : Nat} {id : StructId} (hn : order.idxOf id < n) (value : Operand) :
    Answers c (renderStructTo span n id value) := by
  induction n generalizing id value with
  | zero => simp at hn
  | succ n ih =>
    refine answers_context_bind ((answers_mapM fun ⟨field, index⟩ hfield => ?_).bind fun _ =>
      answers_pure _)
    refine answers_renderField (fun part => answers_renderGiven fun inner value hinner => ?_) _ _
    have hlt := hc.idxOf_lt ⟨field, List.fst_mem_of_mem_zipIdx hfield, hinner⟩
    exact ih (by omega) value

/-- Rendering comes to an end. -/
theorem answers_render {order : List StructId} (hc : c.CompletedIn order) (value : Operand) (t : Ty)
    (span : Span) : Answers c (render value t span) := by
  refine answers_context_bind (answers_renderGiven fun id value _ => ?_)
  have hlt := List.idxOf_le_length (a := id) (l := order) |>.trans hc.length_le
  exact answers_renderStructTo hc span (by omega) value

end OwnLang.Emit

namespace OwnLang.Session

open Check (answerTo answerCut)

variable {c : Context}

/-- Containment by value is well-founded at every moment of every session. The complete structs stand
in the order in which they were completed, everything that a struct holds ahead of it, and this
order only gets longer. So the sizes of types are worked out from the sizes of fields without end to
the nesting, and rendering a value comes to an end. A struct that is needed by value while its fields
are resolved is refused, and one whose layout is granted is complete and does not contain itself. -/
theorem containment_wellFounded (hc : Moment c) :
    ∃ order, c.CompletedIn order ∧
      (∀ d, Onward c d → ∃ more, d.CompletedIn (order ++ more)) ∧
      WellFounded (fun inner outer => c.Contains outer inner) ∧
      (∀ t : Ty, c.sizeOf? t = t.sizeGiven fun id => sumSizes ((c.struct id).fields.map fun f =>
        c.sizeOf? f.type)) ∧
      (∀ (s : Emitter) value t span why, s.context = c →
        Emit.render value t span s ≠ .stopped why) ∧
      (∀ n id usedAt, (c.struct id).state = .resolving →
        answerTo (n + 1) (.layout id usedAt) c = .error
          ⟨if (c.struct id).isInstance then .cyclicTemplate (c.struct id).display
            else .recursiveStruct (c.struct id).display, usedAt, none⟩ c) ∧
      ∀ cut n id usedAt d, answerCut cut n (.layout id usedAt) c = .ok () d →
        (d.struct id).state = .complete ∧ ¬ Relation.TransGen d.Contains id id := by
  obtain ⟨order, horder⟩ := hc.completed
  refine ⟨order, horder, fun d hd => hd.completed hc.wellTyped horder, horder.wellFounded,
    horder.sizeOf?_eq, fun s value t span why hs => (Emit.answers_render horder value t span s hs).1 why,
    fun n id usedAt hresolving => Check.resolveStruct_resolving usedAt hresolving,
    fun cut n id usedAt d h => ?_⟩
  cases n with
  | zero => cases h
  | succ n =>
    have helaborates : Check.Elaborates (Check.answerCut cut n) := Check.elaborates_answerCut n
    have hlaid := Check.complete_resolveStruct helaborates hc.wellTyped (Check.cutAt_eq_ok h)
    have hordered : (Check.answerCut cut (n + 1) (.layout id usedAt)).Preserves
        (Check.Ordered c order) := Check.ordered_answerCut (n + 1) _
    have hd := hordered (Run.ends_of_ok h) ⟨⟨.refl c, hc.wellTyped⟩, [], by simpa using horder⟩
    obtain ⟨more, hmore⟩ := hd.order
    exact ⟨hlaid, hmore.acyclic id⟩

/-- `struct Outer { var inner: Inner[2]; var again: Outer; }` with `struct Inner { var n: i32; }` -/
def outerModule : Surface.Module :=
  let type (name : String) : Surface.TypeExpr := .mk (.named [⟨name, .null⟩] []) .null
  let two : Surface.Expr := .mk (.number 2) .null
  let field (name : String) (t : Surface.TypeExpr) : Surface.VarDecl :=
    { name := ⟨name, .null⟩, constant := false, type := some t, value := none }
  let outer := [field "inner" (.mk (.array (type "Inner") false (some two)) .null),
    field "again" (type "Outer")]
  { file := "outer.own", package := ⟨"outer", .null⟩, imports := []
    items := [⟨.struct ⟨⟨"Outer", .null⟩, outer, []⟩, [], .null⟩,
      ⟨.struct ⟨⟨"Inner", .null⟩, [field "n" (type "i32")], []⟩, [], .null⟩] }

/-- Checking fails where `Outer` holds itself; `Inner` was completed before, and `Outer` never is. -/
theorem containment_wellFounded_outer :
    ∃ c order, Moment c ∧ c.CompletedIn order ∧ (⟨1⟩ : StructId) ∈ order ∧
      (⟨0⟩ : StructId) ∉ order ∧ WellFounded (fun inner outer => c.Contains outer inner) := by
  have hrun : ((do
      let _ ← (Check.checkModules [outerModule]).attempt
      return (← get).structs.toList.map (·.state) : Check (List State))
      { options := .library }).value? = some [.resolving, .complete] := by decide +kernel
  obtain ⟨_, hrun⟩ := Outcome.value?_eq_some.mp hrun
  obtain ⟨_, c, hmodules, hreturn⟩ := Run.bind_eq_ok.mp hrun
  have hends : (Check.checkModules [outerModule]).Ends { options := .library } c := by
    rcases Run.attempt_eq_ok.mp hmodules with ⟨_, h, -⟩ | ⟨_, h, -⟩
    · exact Run.ends_of_ok h
    · exact Run.ends_of_error h
  have hc : Moment c := Reachable.moment ⟨.library, .single (.modules _ hends)⟩
  have hstates : c.structs.toList.map (·.state) = [.resolving, .complete] :=
    (Outcome.ok.inj hreturn).1
  obtain ⟨order, horder, -, hfounded, -⟩ := containment_wellFounded hc
  have hstate (id : StructId) :
      (c.struct id).state = (c.structs.toList.map (·.state))[id.index]?.getD .resolving := by
    unfold Context.struct
    rw [List.getElem?_map, Array.getElem?_toList]
    cases c.structs[id.index]? <;> rfl
  refine ⟨c, order, hc, horder, ?_, ?_, hfounded⟩
  · rw [horder.complete, hstate, hstates]
    rfl
  · rw [horder.complete, hstate, hstates]
    decide

end OwnLang.Session
