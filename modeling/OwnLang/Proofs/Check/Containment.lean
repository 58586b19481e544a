import Mathlib
import OwnLang.Check.Layout
import OwnLang.Proofs.Check.Moments

/-!
# Containment by value

A struct contains another one by value if one of its fields holds it, itself or as element of sized
arrays. A struct is complete once its fields are resolved, and each of these has asked for the
layout of what it holds. So the complete structs stand in an order, the order in which they were
completed, in which everything that a struct contains stands ahead of it (`Context.CompletedIn`).
While checking goes on, the order gets longer and never changes (`Check.Ordered`), since a struct
that is being resolved cannot be resolved a second time.
-/

namespace OwnLang

namespace Context

/-- One of the fields of `outer` holds `inner` by value. -/
def Contains (c : Context) (outer inner : StructId) : Prop :=
  ∃ field ∈ (c.struct outer).fields, field.type.heldStruct? = some inner

/-- The complete structs in the order in which they were completed. What a struct contains was
completed before it. -/
structure CompletedIn (c : Context) (order : List StructId) : Prop where
  nodup : order.Nodup
  complete : ∀ id, id ∈ order ↔ (c.struct id).state = .complete
  earlier : ∀ outer inner, c.Contains outer inner →
    ∃ before after, order = before ++ outer :: after ∧ inner ∈ before

variable {c d : Context} {order : List StructId}

/-- Only the states and the fields of structs matter. -/
theorem CompletedIn.of_structs (h : c.CompletedIn order)
    (hstate : ∀ id, (d.struct id).state = .complete ↔ (c.struct id).state = .complete)
    (hfields : ∀ id, (d.struct id).fields = (c.struct id).fields) : d.CompletedIn order where
  nodup := h.nodup
  complete id := (h.complete id).trans (hstate id).symm
  earlier outer inner hinner := by
    unfold Contains at hinner
    rw [hfields] at hinner
    exact h.earlier outer inner hinner

theorem CompletedIn.of_eq (h : c.CompletedIn order) (hstructs : d.structs = c.structs) :
    d.CompletedIn order :=
  h.of_structs (fun id => by rw [Check.struct_of_eq hstructs])
    fun id => by rw [Check.struct_of_eq hstructs]

/-- A struct is completed when everything that it holds is complete. -/
theorem CompletedIn.push (h : c.CompletedIn order) {id : StructId} {fields : List Field}
    (hdeclared : id.index < c.structs.size) (hid : (c.struct id).state ≠ .complete)
    (hheld : ∀ f ∈ fields, ∀ inner, f.type.heldStruct? = some inner →
      (c.struct inner).state = .complete) :
    (Check.laidOut c id fields).CompletedIn (order ++ [id]) := by
  have hnew : (Check.laidOut c id fields).struct id =
      { c.struct id with fields, state := .complete } := by
    unfold Check.laidOut
    rw [Check.struct_modifyStruct, if_pos ⟨rfl, hdeclared⟩]
  have hother {other : StructId} (hne : other ≠ id) :
      (Check.laidOut c id fields).struct other = c.struct other := by
    unfold Check.laidOut
    rw [Check.struct_modifyStruct, if_neg ?_]
    rintro ⟨hindex, -⟩
    cases id
    cases other
    exact hne (congrArg StructId.mk hindex.symm)
  have hnotin : id ∉ order := fun hmem => hid ((h.complete id).mp hmem)
  refine ⟨List.concat_eq_append ▸ h.nodup.concat hnotin, fun other => ?_,
    fun outer inner hinner => ?_⟩
  · by_cases hsame : other = id
    · simp [hsame, hnew]
    · rw [hother hsame, List.mem_append, h.complete]
      simp [hsame]
  · obtain ⟨f, hf, hinner⟩ := hinner
    by_cases hsame : outer = id
    · rw [hsame, hnew] at hf
      exact ⟨order, [], by rw [hsame], (h.complete inner).mpr (hheld f hf inner hinner)⟩
    · rw [hother hsame] at hf
      obtain ⟨before, after, rfl, hmem⟩ := h.earlier outer inner ⟨f, hf, hinner⟩
      exact ⟨before, after ++ [id], by simp, hmem⟩

/-- What a struct contains stands ahead of it. -/
theorem CompletedIn.idxOf_lt (h : c.CompletedIn order) {outer inner : StructId}
    (hinner : c.Contains outer inner) : order.idxOf inner < order.idxOf outer := by
  obtain ⟨before, after, rfl, hmem⟩ := h.earlier outer inner hinner
  have hnotin : outer ∉ before := fun houter =>
    (List.nodup_append.mp h.nodup).2.2 _ houter _ List.mem_cons_self rfl
  rw [List.idxOf_append_of_mem hmem, List.idxOf_append_of_notMem hnotin]
  exact (List.idxOf_lt_length_of_mem hmem).trans_le (Nat.le_add_right _ _)

theorem CompletedIn.mem (h : c.CompletedIn order) {outer inner : StructId}
    (hinner : c.Contains outer inner) : outer ∈ order ∧ inner ∈ order := by
  obtain ⟨before, after, rfl, hmem⟩ := h.earlier outer inner hinner
  simp [hmem]

/-- Containment has no cycle, and no chain goes on forever. -/
theorem CompletedIn.wellFounded (h : c.CompletedIn order) :
    WellFounded fun inner outer => c.Contains outer inner :=
  Subrelation.wf (fun hinner => h.idxOf_lt hinner) (measure fun id => order.idxOf id).wf

theorem CompletedIn.acyclic (h : c.CompletedIn order) (id : StructId) :
    ¬ Relation.TransGen c.Contains id id := by
  have hlt {outer inner : StructId} (hpath : Relation.TransGen c.Contains outer inner) :
      order.idxOf inner < order.idxOf outer := by
    induction hpath with
    | single hinner => exact h.idxOf_lt hinner
    | tail _ hinner ih => exact (h.idxOf_lt hinner).trans ih
  exact fun hpath => (hlt hpath).false

/-- There are no more complete structs than structs. -/
theorem CompletedIn.length_le (h : c.CompletedIn order) : order.length ≤ c.structs.size := by
  have hnodup : (order.map StructId.index).Nodup :=
    h.nodup.map fun a b hab => by cases a; cases b; exact congrArg StructId.mk hab
  have hsubset : order.map StructId.index ⊆ List.range c.structs.size := by
    intro i hi
    obtain ⟨id, hid, rfl⟩ := List.mem_map.mp hi
    exact List.mem_range.mpr (struct_lt (by simp [(h.complete id).mp hid]))
  simpa using (hnodup.subperm hsubset).length_le

/-! ## Sizes -/

/-- The size of a type depends on that of the struct that it holds. -/
theorem sizeGiven_congr {size size' : StructId → Option Nat} {t : Ty}
    (h : ∀ id, t.heldStruct? = some id → size id = size' id) :
    t.sizeGiven size = t.sizeGiven size' := by
  induction t using Ty.sizeGiven.induct with
  | case8 element constant n writtenAs ih => simp only [Ty.sizeGiven, ih h]
  | case9 id name writtenAs => exact h id rfl
  | _ => rfl

theorem CompletedIn.structSizeTo_eq (h : c.CompletedIn order) {n m : Nat} {id : StructId}
    (hn : order.idxOf id < n) (hm : order.idxOf id < m) :
    c.structSizeTo n id = c.structSizeTo m id := by
  induction n generalizing m id with
  | zero => simp at hn
  | succ n ih =>
    obtain ⟨m, rfl⟩ : ∃ k, m = k + 1 := ⟨m - 1, by omega⟩
    simp only [structSizeTo]
    congr 1
    refine List.map_congr_left fun f hf => sizeGiven_congr fun inner hinner => ?_
    have hlt := h.idxOf_lt ⟨f, hf, hinner⟩
    exact ih (by omega) (by omega)

/-- The size of a type is worked out from the sizes of fields, however deep structs are nested: the
bound on the nesting is never reached. -/
theorem CompletedIn.sizeOf?_eq (h : c.CompletedIn order) (t : Ty) :
    c.sizeOf? t = t.sizeGiven fun id => sumSizes ((c.struct id).fields.map fun f =>
      c.sizeOf? f.type) := by
  refine sizeGiven_congr fun id _ => ?_
  simp only [structSizeTo]
  congr 1
  refine List.map_congr_left fun f hf => sizeGiven_congr fun inner hinner => ?_
  have hlt := (List.idxOf_lt_length_of_mem (h.mem ⟨f, hf, hinner⟩).2).trans_le h.length_le
  exact h.structSizeTo_eq hlt (by omega)

end Context

namespace Check

/-- A context is well typed and has kept what an earlier one knew, and to the structs that were
complete then it has at most added others. -/
structure Ordered (origin : Context) (order : List StructId) (c : Context) : Prop
    extends Elaborated origin c where
  order : ∃ more, c.CompletedIn (order ++ more)

variable {ask : Asker} {origin c d : Context} {order : List StructId} {scope : Scope}

theorem Ordered.of_eq (h : Ordered origin order c) (hglobals : d.globals = c.globals)
    (hstructs : d.structs = c.structs) (hbodies : d.bodies = c.bodies) :
    Ordered origin order d :=
  ⟨h.toElaborated.of_eq hglobals hstructs hbodies,
    h.order.imp fun _ hmore => hmore.of_eq hstructs⟩

theorem ordered_additive : Additive (Ordered origin order) where
  global c g pending hstate hvalue h :=
    ⟨elaborated_additive.global c g pending hstate hvalue h.toElaborated,
      h.order.imp fun _ hmore => hmore.of_eq rfl⟩
  struct c s hstate hfields h := by
    refine ⟨elaborated_additive.struct c s hstate hfields h.toElaborated,
      h.order.imp fun _ hmore => hmore.of_structs (fun id => ?_) fun id => ?_⟩
    all_goals
      rw [struct_push]
      split
    · rename_i hid
      rw [struct_of_size_le (Nat.le_of_eq hid.symm)]
      simp [hstate, default]
    · rfl
    · rename_i hid
      rw [struct_of_size_le (Nat.le_of_eq hid.symm)]
      exact hfields
    · rfl
  member c id members h := by
    refine ⟨elaborated_additive.member c id members h.toElaborated,
      h.order.imp fun _ hmore => hmore.of_structs (fun other => ?_) fun other => ?_⟩
    all_goals
      rw [struct_modifyStruct]
      split <;> rfl
  typeAlias _ _ _ h := h.of_eq rfl rfl rfl
  macroDef _ _ _ _ h := h.of_eq rfl rfl rfl

theorem ordered_detached {α : Type} {work : Check α} (h : work.Preserves (Ordered origin order)) :
    (detached work).Preserves (Ordered origin order) := by
  intro c d hd hc
  obtain ⟨e, hwork, rfl⟩ := Run.ends_andFinally hd
  exact (h hwork (hc.of_eq rfl rfl rfl)).of_eq rfl rfl rfl

theorem ordered_modifyFrame (change : Frame → Frame) :
    (modifyFrame change).Preserves (Ordered origin order) :=
  Run.preserves_modify fun _ hc => hc.of_eq rfl rfl rfl

/-! ## Layouts -/

section

variable (he : Elaborates ask)

include he

/-- What is completed is complete. -/
theorem Elaborates.completed (hc : Ready c) {t : Ty} {span : Span}
    (h : ask.complete t span c = .ok ⟨⟩ d) {inner : StructId} (hinner : t.heldStruct? = some inner) :
    (d.struct inner).state = .complete := by
  unfold Asker.complete at h
  rw [hinner] at h
  exact (he.answer hc rfl h).2

/-- The last thing that is asked for a field is the layout of what it holds. -/
theorem held_resolveField (hc : Ready c) {before : List Field} {decl : Surface.VarDecl}
    {field : Field} (h : resolveField ask scope before decl c = .ok field d) {inner : StructId}
    (hinner : field.type.heldStruct? = some inner) : (d.struct inner).state = .complete := by
  revert h
  change Gives _ c field d → _
  unfold resolveField
  extract_lets +onlyGivenNames declare
  have hdeclare : Gives (declare ⟨⟩) c field d → (d.struct inner).state = .complete := by
    refine gives_bind fun declared c₁ htype => ?_
    have hc₁ := he.annotation hc htype
    extract_lets +onlyGivenNames withDefault
    have hdefault {default : Option Core.Expr} {c₂ : Context} (hc₂ : Ready c₂) :
        Gives (withDefault default) c₂ field d → (d.struct inner).state = .complete := by
      dsimp -zeta only [withDefault]
      extract_lets +onlyGivenNames withType
      have htyped {t : Ty} :
          Gives (withType t) c₂ field d → (d.struct inner).state = .complete := by
        dsimp -zeta only [withType]
        refine gives_bind fun u c₃ hvoid => ?_
        obtain rfl : c₃ = c₂ :=
          preserves_requireValueType (P := (· = c₂)) t _ (Run.ends_of_ok hvoid) rfl
        refine gives_bind fun u c₄ hcomplete h => ?_
        dsimp only [Gives] at h
        split at h
        · cases h
        · cases h
          exact he.completed hc₂ hcomplete hinner
      clear_value withType
      cases declared with
      | some t => exact htyped
      | none =>
        cases default with
        | some v => exact htyped
        | none => exact fun h => by cases h
    clear_value withDefault
    cases decl.value with
    | none => exact hdefault hc₁.ready
    | some e =>
      refine gives_bind fun default c₂ hvalue => ?_
      obtain ⟨v, hv, rfl⟩ := Run.map_eq_ok.mp hvalue
      exact hdefault (he.value hc₁.ready hv).1.ready
  clear_value declare
  split
  · exact fun h => by cases h
  · exact hdeclare

omit he in
/-- A complete struct is one of which the field types are known. -/
theorem Onward.complete (h : Onward c d) {id : StructId} (hid : (c.struct id).state = .complete) :
    (d.struct id).state = .complete :=
  (Context.fieldTypes?_eq_some.mp
    (h.grows.fields id _ (Context.fieldTypes?_of_complete hid))).1

theorem held_resolveFields (hc : Ready c) {decls : List Surface.VarDecl} {done fields : List Field}
    (hdone : ∀ f ∈ done, ∀ inner, f.type.heldStruct? = some inner →
      (c.struct inner).state = .complete)
    (h : resolveFields ask scope done decls c = .ok fields d) :
    ∀ f ∈ fields, ∀ inner, f.type.heldStruct? = some inner →
      (d.struct inner).state = .complete := by
  induction decls generalizing c done with
  | nil =>
    cases h
    exact hdone
  | cons decl rest ih =>
    obtain ⟨next, c₁, hnext, hrest⟩ := Run.bind_eq_ok.mp h
    have hc₁ := (sound_resolveField he hc hnext).1
    refine ih hc₁.ready (fun f hf inner hinner => ?_) hrest
    rcases List.mem_append.mp hf with hf | hf
    · exact hc₁.complete (hdone f hf inner hinner)
    · rw [List.mem_singleton.mp hf] at hinner
      exact held_resolveField he hc hnext hinner

/-- All that the fields of a struct hold is complete when they are resolved. -/
theorem held_structWork (hc : Elaborated origin c) {id : StructId}
    (hstate : (c.struct id).state = .declared) {fields : List Field}
    (h : structWork ask (c.struct id) (laying c id) = .ok fields d) :
    ∀ f ∈ fields, ∀ inner, f.type.heldStruct? = some inner →
      (d.struct inner).state = .complete := by
  have hlaying := hc.laying hstate
  obtain ⟨c₁, hwork, rfl⟩ := Run.andFinally_eq_ok.mp h
  have hready : Ready { laying c id with frame := none } :=
    ⟨(hlaying.of_eq (d := { laying c id with frame := none }) rfl rfl rfl).wellTyped,
      Frame.scoped_default⟩
  have hheld := held_resolveFields he hready (fun f hf => by cases hf) hwork
  exact hheld

omit he in
theorem Ordered.laying (hc : Ordered origin order c) {id : StructId}
    (hstate : (c.struct id).state = .declared) : Ordered origin order (laying c id) := by
  refine ⟨hc.toElaborated.laying hstate, hc.order.imp fun _ hmore =>
    hmore.of_structs (fun other => ?_) fun other => ?_⟩
  all_goals
    unfold Check.laying
    rw [struct_modifyStruct]
    split
  · rename_i hother
    have hsame : id = other := by
      cases id
      cases other
      exact congrArg StructId.mk hother.1
    subst hsame
    simp [hstate]
  all_goals rfl

variable (ha : ∀ order origin q, (ask q).Preserves (Ordered origin order))

include ha

omit he in
theorem ordered_structWork (s : StructDef) : (structWork ask s).Preserves (Ordered origin order) :=
  ordered_detached (preserves_resolveFields (fun q _ => ha order origin q) _ _ _)

/-- A struct is completed behind everything that was completed while its fields were resolved. -/
theorem ordered_resolveStruct (id : StructId) (usedAt : Span) :
    (resolveStruct ask id usedAt).Preserves (Ordered origin order) := by
  intro c d hd hc
  have helaborated := elaborated_resolveStruct he id usedAt hd hc.toElaborated
  obtain rfl | ⟨hstate, hend | ⟨fields, c₁, hwork, rfl | rfl⟩⟩ := ends_resolveStruct hd
  · exact hc
  · exact ordered_structWork ha _ hend (hc.laying hstate)
  · exact ordered_structWork ha _ (Run.ends_of_ok hwork) (hc.laying hstate)
  · obtain ⟨hid, hresolving, -⟩ := sound_structWork he hc.toElaborated hstate hwork
    obtain ⟨more, hmore⟩ :=
      (ordered_structWork ha _ (Run.ends_of_ok hwork) (hc.laying hstate)).order
    refine ⟨helaborated, more ++ [id], ?_⟩
    rw [← List.append_assoc]
    exact hmore.push hid (by simp [hresolving]) (held_structWork he hc.toElaborated hstate hwork)

theorem ordered_stable : Stable ask (Ordered origin order) where
  answers q _ := ha order origin q
  detached := ordered_detached
  consume := preserves_consume ordered_modifyFrame
  aliasStarted _ _ hc := hc.of_eq rfl rfl rfl
  aliasDone _ _ _ hc := hc.of_eq rfl rfl rfl
  structResolved := ordered_resolveStruct he ha
  macroDone _ _ _ _ hc := hc.of_eq rfl rfl rfl
  instantiate := preserves_instantiate ordered_additive (fun q _ => ha order origin q)
    ordered_detached (fun _ _ _ hc => hc.of_eq rfl rfl rfl) fun _ _ _ hc => hc.of_eq rfl rfl rfl

theorem ordered_lasting : Lasting ask (Ordered origin order) where
  toStable := ordered_stable he ha
  everyAnswer := ha order origin
  agrees _ _ h hc := hc.of_eq h.globals h.structs h.bodies
  bodyOpened _ _ _ hc := hc.of_eq rfl rfl rfl
  bodyClosed _ hc := hc.of_eq rfl rfl rfl
  param _ _ := preserves_declareLocal ordered_modifyFrame _ _ _ _
  receiver _ _ := preserves_declareLocal ordered_modifyFrame _ _ _ _
  declared := preserves_declStmt ordered_modifyFrame (ordered_stable he ha)
  packages _ _ hc := hc.of_eq rfl rfl rfl
  entityDeclared := preserves_declareEntity ordered_additive
  templateDeclared _ := preserves_declareTemplate (fun _ _ hc => hc.of_eq rfl rfl rfl)
    fun _ _ _ hc => hc.of_eq rfl rfl rfl
  bodyTaken _ _ _ _ hc := hc.of_eq rfl rfl rfl
  bodyAccepted c d id body hbody hc hd :=
    ⟨(elaborated_lasting he).bodyAccepted c d id body hbody hc.toElaborated hd.toElaborated,
      hd.order.imp fun _ hmore => hmore.of_eq rfl⟩

theorem ordered_resolveGlobal (id : GlobalId) (usedAt : Span) :
    (resolveGlobal ask id usedAt).Preserves (Ordered origin order) := by
  intro c d hd hc
  have helaborated := elaborated_resolveGlobal he id usedAt hd hc.toElaborated
  have hwork : (detached (globalWork ask (c.global id))).Preserves (Ordered origin order) :=
    ordered_detached (preserves_globalWork (ordered_stable he ha).following _)
  have hstarted (hid : ¬ Settled (c.global id)) : Ordered origin order (started c id) :=
    ⟨hc.toElaborated.started hid, hc.order.imp fun _ hmore => hmore.of_eq rfl⟩
  obtain rfl | ⟨hid, hend | ⟨t, value, c₁, hdone, rfl⟩⟩ := ends_resolveGlobal hd
  · exact hc
  · exact hwork hend (hstarted hid)
  · exact ⟨helaborated, (hwork (Run.ends_of_ok hdone) (hstarted hid)).order.imp fun _ hmore =>
      hmore.of_eq rfl⟩

end

theorem ordered_answerCut {cut : Cut} (n : Nat) (q : Query) :
    (answerCut cut n q).Preserves (Ordered origin order) := by
  induction n generalizing q origin order with
  | zero => exact Run.preserves_stop _
  | succ n ih =>
    have he : Elaborates (answerCut cut n) := elaborates_answerCut n
    have ha (order origin q) : (answerCut cut n q).Preserves (Ordered origin order) := ih q
    exact preserves_cutAt ((ordered_lasting he ha).toInvariant.step (ordered_resolveGlobal he ha) q)

/-- A struct that is needed by value while its own fields are resolved is refused. -/
theorem resolveStruct_resolving {id : StructId} (usedAt : Span)
    (h : (c.struct id).state = .resolving) :
    resolveStruct ask id usedAt c = .error
      ⟨if (c.struct id).isInstance then .cyclicTemplate (c.struct id).display
        else .recursiveStruct (c.struct id).display, usedAt, none⟩ c := by
  unfold resolveStruct
  rw [Run.bind_apply, Run.get_apply]
  simp only [h]
  rfl

end Check

namespace Session

variable {c d : Context} {order : List StructId}

theorem Onward.completed (hcd : Onward c d) (hc : c.WellTyped) (horder : c.CompletedIn order) :
    ∃ more, d.CompletedIn (order ++ more) := by
  refine (hcd.keeps (P := Check.Ordered c order) (fun cut => ?_)
    ⟨⟨.refl c, hc⟩, [], by simpa using horder⟩).order
  exact Check.ordered_lasting (Check.elaborates_answerCut _) fun order origin q =>
    Check.ordered_answerCut _ q

theorem wellTyped_start (options : Options) : ({ options } : Context).WellTyped where
  globals id decl owner t hkind := by cases hkind
  structs id := ⟨fun _ => rfl, fun f hf => by cases hf⟩
  bodies body hbody := by simp at hbody

theorem Onward.wellTyped (hcd : Onward c d) (hc : c.WellTyped) : d.WellTyped :=
  (hcd.keeps (P := Check.Elaborated c)
    (fun _ => Check.elaborated_lasting (Check.elaborates_answerCut _)) ⟨.refl c, hc⟩).wellTyped

theorem Moment.wellTyped (hc : Moment c) : c.WellTyped := by
  obtain ⟨options, hstart⟩ := hc
  exact hstart.wellTyped (wellTyped_start options)

theorem Amidst.wellTyped (hc : Amidst c) : c.WellTyped := by
  obtain ⟨m, frame, inProgress, hm, rfl⟩ := hc
  have hself : Check.Elaborated m m := ⟨.refl m, hm.wellTyped⟩
  exact (hself.of_eq (d := { m with frame, inProgress }) rfl rfl rfl).wellTyped

theorem Moment.completed (hc : Moment c) : ∃ order, c.CompletedIn order := by
  obtain ⟨options, hstart⟩ := hc
  have hempty : ({ options } : Context).CompletedIn [] := by
    refine ⟨List.nodup_nil, fun id => ?_, fun outer inner hinner => ?_⟩
    · simp [Context.struct, default]
    · obtain ⟨f, hf, -⟩ := hinner
      cases hf
  simpa using hstart.completed (wellTyped_start options) hempty

end Session

end OwnLang
