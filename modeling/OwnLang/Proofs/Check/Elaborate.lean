import Mathlib
import OwnLang.Proofs.Check.WellTyped
import OwnLang.Proofs.Core.Eval

/-!
# Checking elaborates

`Elaborates` says of the answers to queries that they keep a context well typed, and that what they
promise of a checked tree holds in the context that they leave behind. Where checking goes on from
there, through other entities and with more locals, what is known only grows (`Onward`), so a tree
that was typed on the way is typed at the end.

The locals that a frame shows are declared, and `this` points at the struct of the method
(`Frame.Scoped`).
-/

namespace OwnLang

open OwnLang.Core (TypeEnv)

/-- The locals that are visible are declared, and `this` points at its struct. -/
structure Frame.Scoped (f : Frame) : Prop where
  visible : ∀ block ∈ f.blocks, ∀ id ∈ block.locals, id.index < f.locals.size
  receiver : ∀ this id, f.receiver = some (this, id) → this.index < f.locals.size ∧
    ∃ target constant, (f.localAt this).type.shape.pointee? = some (target, constant) ∧
      target.shape.struct? = some id

/-- What an expression denotes satisfies the typing rules. -/
def Denoted.Typed (Γ : TypeEnv) : Denoted → Prop
  | .value e => e.Typed Γ
  | .place p => p.Typed Γ

namespace Frame

variable {f g : Frame}

theorem Scoped.advances (h : f.Scoped) (hfg : f.Advances g) : g.Scoped where
  visible block hblock id hid := by
    have htop : ∀ id ∈ f.top.locals, id.index < f.locals.size := by
      unfold Frame.top
      cases hblocks : f.blocks with
      | nil => intro id hid; cases hid
      | cons b rest => exact h.visible b (hblocks ▸ List.mem_cons_self)
    have hcases : block = g.top ∨ block ∈ g.blocks.tail := by
      unfold Frame.top
      cases hblocks : g.blocks with
      | nil => simp [hblocks] at hblock
      | cons b rest => simpa [hblocks] using hblock
    rcases hcases with rfl | htail
    · obtain ⟨added, hlocals, hadded⟩ := hfg.locals
      rw [hlocals] at hid
      rcases List.mem_append.mp hid with hid | hid
      · exact (hadded id hid).2.1
      · exact (htop id hid).trans_le hfg.size
    · obtain ⟨i, hi, rfl⟩ := List.getElem_of_mem htail
      have hi' : i < f.blocks.tail.length := by rw [hfg.below.length_eq]; exact hi
      have hparks := (List.forall₂_iff_get.mp hfg.below).2 i hi' hi
      have hmem : f.blocks.tail.get ⟨i, hi'⟩ ∈ f.blocks := List.mem_of_mem_tail (List.get_mem _ _)
      refine (h.visible _ hmem id ?_).trans_le hfg.size
      rw [← hparks.locals]
      exact hid
  receiver this id hreceiver := by
    obtain ⟨hthis, target, constant, htarget, hid⟩ := h.receiver this id (hfg.receiver ▸ hreceiver)
    refine ⟨hthis.trans_le hfg.size, target, constant, ?_, hid⟩
    rw [hfg.localAt this hthis]
    exact htarget

theorem Scoped.lookup_lt (h : f.Scoped) {name : String} {id : LocalId}
    (hid : f.lookup name = some id) : id.index < f.locals.size := by
  obtain ⟨block, hblock, hmem⟩ := List.mem_flatMap.mp (List.mem_of_find?_eq_some hid)
  exact h.visible block hblock id hmem

theorem scoped_default : (default : Frame).Scoped :=
  ⟨fun _ hblock => absurd hblock List.not_mem_nil, fun _ _ hreceiver => by cases hreceiver⟩

end Frame

namespace Check

open Surface (Ident)

/-- Expressions can be checked here, and what they are checked to is typed. -/
structure Ready (c : Context) : Prop where
  wellTyped : c.WellTyped
  visible : c.here.Scoped

/-- Checking goes on in the same function, and what was known is still known. -/
structure Onward (c d : Context) : Prop where
  ready : Ready d
  grows : c.typeEnv.Extends d.typeEnv
  returns : d.here.returns = c.here.returns
  frame : d.frame.isSome = c.frame.isSome

/-- What an answer promises in the context that it leaves behind. Statements stand in a function. -/
def Promised (d : Context) : (q : Query) → q.Answer → Prop
  | .value _ expected _, e => e.Typed d.typeEnv ∧ ∀ t, expected = some t → e.type.same t
  | .denoted .., denoted => denoted.Typed d.typeEnv
  | .layout id _, _ => (d.struct id).state = .complete
  | .global id _, t => d.typeOf? id = some t
  | .stmt .., s => d.frame.isSome → s.Typed d.typeEnv d.here.returns
  | .block .., (b, _) => d.frame.isSome → b.Typed d.typeEnv d.here.returns
  | .type .., _ | .typeAlias .., _ => True

/-- Answers keep contexts well typed, and promise what they should. For the type of a global it does
not matter which frame is open. -/
structure Elaborates (ask : Asker) : Prop where
  steady : Steady ask
  keeps : ∀ origin q, (ask q).Preserves (Elaborated origin)
  sound : ∀ {c d : Context} {q : Query} {a : q.Answer}, Ready c → ask q c = .ok a d →
    Promised d q a
  global : ∀ {c d : Context} {id : GlobalId} {usedAt : Span} {t : Ty}, c.WellTyped →
    ask (.global id usedAt) c = .ok t d → d.typeOf? id = some t

variable {ask : Asker} {origin c d e : Context} {scope : Scope}

theorem Onward.refl (hc : Ready c) : Onward c c := ⟨hc, .refl _, rfl, rfl⟩

theorem Onward.trans (h : Onward c d) (h' : Onward d e) : Onward c e :=
  ⟨h'.ready, h.grows.trans h'.grows, h'.returns.trans h.returns, h'.frame.trans h.frame⟩

/-- What is kept of entities and frames is what typing needs. -/
theorem Ready.onward (hc : Ready c) (hkept : Elaborated c d) (hsteps : c.Steps Frame.Advances d) :
    Onward c d where
  ready := ⟨hkept.wellTyped, hc.visible.advances (hsteps.here (.refl _))⟩
  grows := (c.envWith_extends (hsteps.here (.refl _)).toGrows).trans
    (hkept.keeps.extends d.here.locals)
  returns := (hsteps.here (.refl _)).returns
  frame := by
    have hrel := hsteps.frame
    revert hrel
    generalize c.frame = o
    generalize d.frame = o'
    rintro (_ | _) <;> rfl

theorem Ready.elaborated (hc : Ready c) : Elaborated c c := ⟨.refl c, hc.wellTyped⟩

section

variable (he : Elaborates ask)

include he

/-! ## Answers -/

/-- What an expression query is answered, and where that leads. -/
theorem Elaborates.answer (hc : Ready c) {q : Query} (hq : q.isExpr) {a : q.Answer}
    (h : ask q c = .ok a d) : Onward c d ∧ Promised d q a :=
  ⟨hc.onward (he.keeps c q (Run.ends_of_ok h) hc.elaborated)
    (he.steady.expr hq h).rests.advances, he.sound hc h⟩

theorem Elaborates.value (hc : Ready c) {e : Surface.Expr} {expected : Option Ty} {v : Core.Expr}
    (h : ask (.value e expected scope) c = .ok v d) :
    Onward c d ∧ v.Typed d.typeEnv ∧ ∀ t, expected = some t → v.type.same t := he.answer hc rfl h

theorem Elaborates.valueOf (hc : Ready c) {e : Surface.Expr} {expected : Ty} {v : Core.Expr}
    (h : ask.valueOf e expected scope c = .ok v d) :
    Onward c d ∧ v.Typed d.typeEnv ∧ v.type.same expected := by
  obtain ⟨hd, hv, hsame⟩ := he.value hc h
  exact ⟨hd, hv, hsame _ rfl⟩


theorem Elaborates.onward (hc : Ready c) {q : Query} (hq : q.isExpr) {a : q.Answer}
    (h : ask q c = .ok a d) : Onward c d := (he.answer hc hq h).1

theorem Elaborates.annotation (hc : Ready c) {t : Option Surface.TypeExpr} {out : Option Ty}
    (h : resolveAnnotation ask t scope c = .ok out d) : Onward c d := by
  cases t with
  | none =>
    cases h
    exact .refl hc
  | some t =>
    obtain ⟨u, hu, -⟩ := Run.map_eq_ok.mp h
    exact he.onward hc rfl hu

theorem Elaborates.complete (hc : Ready c) {t : Ty} {span : Span}
    (h : ask.complete t span c = .ok ⟨⟩ d) : Onward c d := by
  unfold Asker.complete at h
  cases hheld : t.heldStruct? with
  | some id =>
    rw [hheld] at h
    exact he.onward hc rfl h
  | none =>
    rw [hheld] at h
    cases h
    exact .refl hc

/-! ## Structs -/

theorem sound_resolveField (hc : Ready c) {before : List Field} {decl : Surface.VarDecl}
    {field : Field} (h : resolveField ask scope before decl c = .ok field d) :
    Onward c d ∧ field.Sound d.typeEnv := by
  revert h
  change Gives _ c field d → _
  unfold resolveField
  extract_lets +onlyGivenNames declare
  have hdeclare : Gives (declare ⟨⟩) c field d → Onward c d ∧ field.Sound d.typeEnv := by
    refine gives_bind fun declared c₁ htype => ?_
    have hc₁ := he.annotation hc htype
    extract_lets +onlyGivenNames withDefault
    have hdefault {default : Option Core.Expr} {c₂ : Context} (hc₂ : Onward c₁ c₂)
        (hvalue : ∀ v, default = some v → v.Typed c₂.typeEnv ∧ ∀ t, declared = some t → v.type.same t) :
        Gives (withDefault default) c₂ field d → Onward c d ∧ field.Sound d.typeEnv := by
      dsimp -zeta only [withDefault]
      extract_lets +onlyGivenNames withType
      have htyped {t : Ty} (hsame : ∀ v, default = some v → v.type.same t) :
          Gives (withType t) c₂ field d → Onward c d ∧ field.Sound d.typeEnv := by
        dsimp -zeta only [withType]
        refine gives_bind fun u c₃ hvoid => ?_
        obtain rfl : c₃ = c₂ :=
          preserves_requireValueType (P := (· = c₂)) t _ (Run.ends_of_ok hvoid) rfl
        refine gives_bind fun u c₄ hcomplete h => ?_
        have hc₄ := he.complete hc₂.ready hcomplete
        dsimp only [Gives] at h
        split at h
        · cases h
        · cases h
          exact ⟨(hc₁.trans hc₂).trans hc₄, fun v hv =>
            ⟨(hvalue v hv).1.mono hc₄.grows, hsame v hv⟩⟩
      clear_value withType
      cases declared with
      | some t => exact htyped fun v hv => (hvalue v hv).2 t rfl
      | none =>
        cases default with
        | some v =>
          refine htyped fun v' hv' => ?_
          cases hv'
          exact Ty.same_refl _
        | none => exact fun h => by cases h
    clear_value withDefault
    cases decl.value with
    | none => exact hdefault (.refl hc₁.ready) fun v hv => by cases hv
    | some e =>
      refine gives_bind fun default c₂ hvalue => ?_
      obtain ⟨v, hv, rfl⟩ := Run.map_eq_ok.mp hvalue
      obtain ⟨hc₂, htyped, hsame⟩ := he.value hc₁.ready hv
      refine hdefault hc₂ fun v' hv' => ?_
      cases hv'
      exact ⟨htyped, hsame⟩
  clear_value declare
  split
  · exact fun h => by cases h
  · exact hdeclare

theorem sound_resolveFields (hc : Ready c) {decls : List Surface.VarDecl} {done fields : List Field}
    (hdone : ∀ f ∈ done, f.Sound c.typeEnv)
    (h : resolveFields ask scope done decls c = .ok fields d) : ∀ f ∈ fields, f.Sound d.typeEnv := by
  induction decls generalizing c done with
  | nil =>
    cases h
    exact hdone
  | cons decl rest ih =>
    obtain ⟨next, c₁, hnext, hrest⟩ := Run.bind_eq_ok.mp h
    obtain ⟨hc₁, hsound⟩ := sound_resolveField he hc hnext
    refine ih hc₁.ready (fun f hf => ?_) hrest
    rcases List.mem_append.mp hf with hf | hf
    · exact (hdone f hf).mono hc₁.grows
    · rw [List.mem_singleton.mp hf]
      exact hsound

omit he in
/-- The context while the fields of a struct are resolved. -/
def laying (c : Context) (id : StructId) : Context :=
  c.modifyStruct id fun s => { s with state := .resolving }

omit he in
/-- The context once the fields of a struct are resolved. -/
def laidOut (c : Context) (id : StructId) (fields : List Field) : Context :=
  c.modifyStruct id fun s => { s with fields, state := .complete }

omit he in
/-- The fields of a struct, resolved without a frame. -/
def structWork (ask : Asker) (s : StructDef) : Check (List Field) :=
  detached (resolveFields ask s.scope [] s.decl.fields)

omit he in
/-- A struct that was only declared is laid out, and nothing happens to another one. -/
theorem ends_resolveStruct {id : StructId} {usedAt : Span}
    (hd : (resolveStruct ask id usedAt).Ends c d) :
    d = c ∨ (c.struct id).state = .declared ∧
      ((structWork ask (c.struct id)).Ends (laying c id) d ∨
        ∃ fields c₁, structWork ask (c.struct id) (laying c id) = .ok fields c₁ ∧
          (d = c₁ ∨ d = laidOut c₁ id fields)) := by
  unfold resolveStruct at hd
  replace hd := Run.ends_get_bind hd
  dsimp only at hd
  split at hd
  · exact .inl (Run.preserves_pure (P := (· = c)) _ hd rfl)
  · exact .inl (Run.preserves_reject (P := (· = c)) _ _ hd rfl)
  · rename_i hstate
    refine .inr ⟨hstate, ?_⟩
    replace hd := Run.ends_modify_bind hd
    obtain hend | ⟨fields, c₁, hfields, hend⟩ := Run.ends_bind hd
    · exact .inl hend
    · refine .inr ⟨fields, c₁, hfields, ?_⟩
      replace hend := Run.ends_get_bind hend
      split at hend
      · obtain hfail | ⟨_, _, hfail, -⟩ := Run.ends_bind hend
        · exact .inl (Run.preserves_fail (P := (· = c₁)) _ hfail rfl)
        · cases hfail
      · exact .inr (Run.ends_modify hend)

omit he in
theorem resolveStruct_eq_ok {id : StructId} {usedAt : Span}
    (h : resolveStruct ask id usedAt c = .ok () d) :
    d = c ∧ (c.struct id).state = .complete ∨ (c.struct id).state = .declared ∧
      ∃ fields c₁, structWork ask (c.struct id) (laying c id) = .ok fields c₁ ∧
        d = laidOut c₁ id fields ∧ clashingMember? (fields.map (·.name))
          ((c₁.struct id).members.map fun (_, member) => (c₁.global member).name) = none := by
  unfold resolveStruct at h
  obtain ⟨_, _, hget, hrest⟩ := Run.bind_eq_ok.mp h
  cases hget
  replace hrest : Gives _ c () d := hrest
  dsimp only at hrest
  split at hrest
  · rename_i hstate
    cases hrest
    exact .inl ⟨rfl, hstate⟩
  · cases hrest
  · rename_i hstate
    refine .inr ⟨hstate, ?_⟩
    obtain ⟨_, c₁, hlaying, hrest⟩ := Run.bind_eq_ok.mp hrest
    cases hlaying
    obtain ⟨fields, c₂, hfields, hrest⟩ := Run.bind_eq_ok.mp hrest
    obtain ⟨_, _, hget, hrest⟩ := Run.bind_eq_ok.mp hrest
    cases hget
    replace hrest : Gives _ c₂ () d := hrest
    split at hrest
    · cases hrest
    · rename_i hclash
      cases hrest
      refine ⟨fields, c₂, hfields, rfl, ?_⟩
      exact Option.eq_none_iff_forall_ne_some.mpr fun found hfound => hclash _ _ hfound

omit he in
theorem Elaborated.laying (hc : Elaborated origin c) {id : StructId}
    (hstate : (c.struct id).state = .declared) : Elaborated origin (laying c id) := by
  have hempty := (hc.wellTyped.structs id).fields (by simp [hstate])
  refine hc.modifyStruct (fun hid => ?_) (by simp [hstate])
    ⟨fun _ => hempty, fun f hf => by simp [hempty] at hf⟩
  by_contra hne
  exact hne ((hc.keeps.structs id hid hne).1 ▸ hstate)

theorem preserves_structWork (s : StructDef) : (structWork ask s).Preserves (Elaborated origin) :=
  elaborated_detached (preserves_resolveFields (fun q _ => he.keeps origin q) _ _ _)

/-- A struct stays as it is while its fields are resolved, and they are sound. -/
theorem sound_structWork (hc : Elaborated origin c) {id : StructId}
    (hstate : (c.struct id).state = .declared) {fields : List Field}
    (h : structWork ask (c.struct id) (laying c id) = .ok fields d) :
    id.index < d.structs.size ∧ (d.struct id).state = .resolving ∧
      ∀ f ∈ fields, f.Sound (d.envWith #[]) := by
  have hlaying := hc.laying hstate
  have hid : id.index < c.structs.size := Context.struct_lt (by simp [hstate])
  have hkeeps := (preserves_structWork he _ (Run.ends_of_ok h) hlaying.self).keeps
  have hsize : id.index < (Check.laying c id).structs.size := by
    simpa [Check.laying, Context.modifyStruct] using hid
  have hresolving : ((Check.laying c id).struct id).state = .resolving := by
    unfold Check.laying
    rw [struct_modifyStruct, if_pos ⟨rfl, hid⟩]
  refine ⟨hsize.trans_le hkeeps.structCount, ?_, ?_⟩
  · rw [(hkeeps.structs id hsize (by simp [hresolving])).1, hresolving]
  · obtain ⟨c₁, hwork, rfl⟩ := Run.andFinally_eq_ok.mp h
    have hready : Ready { Check.laying c id with frame := none } :=
      ⟨(hlaying.of_eq (d := { Check.laying c id with frame := none }) rfl rfl rfl).wellTyped,
        Frame.scoped_default⟩
    have hframe : c₁.frame = none := by
      have hrel := (he.steady.evaluated hwork fun _ hP =>
        preserves_resolveFields hP.answers _ _ _).frame
      revert hrel
      cases c₁.frame with
      | none => exact fun _ => rfl
      | some f => exact fun hrel => by cases hrel
    have henv : c₁.typeEnv = c₁.envWith #[] := by
      unfold Context.typeEnv Context.here
      rw [hframe]
      rfl
    exact henv ▸ sound_resolveFields he hready (fun f hf => by cases hf) hwork

theorem elaborated_resolveStruct (id : StructId) (usedAt : Span) :
    (resolveStruct ask id usedAt).Preserves (Elaborated origin) := by
  intro c d hd hc
  obtain rfl | ⟨hstate, hend | ⟨fields, c₁, hwork, rfl | rfl⟩⟩ := ends_resolveStruct hd
  · exact hc
  · exact preserves_structWork he _ hend (hc.laying hstate)
  · exact preserves_structWork he _ (Run.ends_of_ok hwork) (hc.laying hstate)
  · obtain ⟨-, hresolving, hsound⟩ := sound_structWork he hc hstate hwork
    refine (preserves_structWork he _ (Run.ends_of_ok hwork) (hc.laying hstate)).modifyStruct
      (fun hid => ?_) (by simp [hresolving]) ⟨fun hne => absurd rfl hne, hsound⟩
    by_contra hne
    exact hne ((hc.keeps.structs id hid hne).1 ▸ hstate)

/-- The struct of a layout is complete. -/
theorem complete_resolveStruct (hc : c.WellTyped) {id : StructId} {usedAt : Span}
    (h : resolveStruct ask id usedAt c = .ok () d) : (d.struct id).state = .complete := by
  obtain ⟨rfl, hstate⟩ | ⟨hstate, fields, c₁, hwork, rfl, -⟩ := resolveStruct_eq_ok h
  · exact hstate
  · obtain ⟨hid, -⟩ := sound_structWork he ⟨.refl c, hc⟩ hstate hwork
    unfold laidOut
    rw [struct_modifyStruct, if_pos ⟨rfl, hid⟩]

/-! ## Parts of checking -/

/-- Contexts stay well typed through every part of checking an expression. -/
theorem Elaborates.stable : Stable ask (Elaborated origin) where
  answers q _ := he.keeps origin q
  detached := elaborated_detached
  consume := preserves_consume elaborated_modifyFrame
  aliasStarted _ _ hc := hc.of_eq rfl rfl rfl
  aliasDone _ _ _ hc := hc.of_eq rfl rfl rfl
  structResolved := elaborated_resolveStruct he
  macroDone _ _ _ _ hc := hc.of_eq rfl rfl rfl
  instantiate := preserves_instantiate elaborated_additive (fun q _ => he.keeps origin q)
    elaborated_detached (fun _ _ _ hc => hc.of_eq rfl rfl rfl) fun _ _ _ hc => hc.of_eq rfl rfl rfl

/-- Where a part of checking an expression leads. -/
theorem Elaborates.evaluated (hc : Ready c) {α : Type} {work : Check α} {a : α}
    (h : work c = .ok a d) (hwork : ∀ P, Stable ask P → work.Preserves P) : Onward c d :=
  hc.onward (hwork _ he.stable (Run.ends_of_ok h) hc.elaborated)
    (he.steady.evaluated h hwork).rests.advances

end

/-! ## Signatures -/

theorem length_mapM {α β : Type} {f : α → Check β} {l : List α} {out : List β}
    (h : l.mapM f c = .ok out d) : out.length = l.length := by
  induction l generalizing c out with
  | nil =>
    cases h
    rfl
  | cons a l ih =>
    rw [List.mapM_cons] at h
    obtain ⟨b, c₁, -, hrest⟩ := Run.bind_eq_ok.mp h
    obtain ⟨bs, c₂, hbs, hreturn⟩ := Run.bind_eq_ok.mp hrest
    cases hreturn
    simp [ih hbs]

theorem fnType_hasType {decl : Surface.FnDecl} {owner : Option StructId} {t : Ty}
    (h : fnType ask decl owner scope c = .ok t d) : decl.HasType owner t := by
  unfold fnType at h
  obtain ⟨_, _, hget, hrest⟩ := Run.bind_eq_ok.mp h
  cases hget
  obtain ⟨params, c₁, hparams, hrest⟩ := Run.bind_eq_ok.mp hrest
  obtain ⟨returns, c₂, -, hreturn⟩ := Run.bind_eq_ok.mp hrest
  cases hreturn
  refine ⟨receiverTypes c decl owner, params, decl.variadic, returns, rfl, length_mapM hparams, ?_⟩
  unfold receiverTypes
  cases owner with
  | none => exact .inl rfl
  | some id =>
    by_cases hmethod : decl.kind.isMethod
    · exact .inr ⟨id, _, _, rfl, by simp only [hmethod, if_true]; rfl⟩
    · exact .inl (by simp [hmethod])

/-- What was never declared is a variable without a type and without a value. -/
theorem variableType_default {t : Ty} {value : Option Const}
    (h : variableType ask ⟨default, true, none, none⟩ scope c = .ok (t, value) d) : False := by
  unfold variableType at h
  obtain ⟨declared, c₁, htype, hrest⟩ := Run.bind_eq_ok.mp h
  cases htype
  cases hrest

/-- What the type and the value of a global are worked out from. -/
def globalWork (ask : Asker) (g : Global) : Check (Ty × Option Const) :=
  match g.kind with
  | .function decl owner => do return (← fnType ask decl owner g.scope, none)
  | .storage decl => variableType ask decl g.scope

/-- The context while a global is resolved. -/
def started (c : Context) (id : GlobalId) : Context :=
  c.modifyGlobal id fun g => { g with state := .resolving }

/-- The context once a global is resolved. -/
def completed (c : Context) (id : GlobalId) (t : Ty) (value : Option Const) : Context :=
  c.modifyGlobal id fun g => { g with type := some t, value, state := .complete }

theorem globalWork_hasType {g : Global} {decl : Surface.FnDecl} {owner : Option StructId} {t : Ty}
    {value : Option Const} (hkind : g.kind = .function decl owner)
    (h : globalWork ask g c = .ok (t, value) d) : decl.HasType owner t := by
  unfold globalWork at h
  rw [hkind] at h
  obtain ⟨u, c₁, hu, hreturn⟩ := Run.bind_eq_ok.mp h
  cases hreturn
  exact fnType_hasType hu

theorem preserves_globalWork {P : Context → Prop} (h : Following (.keeping P) ask ask) (g : Global) :
    (globalWork ask g).Preserves P := by
  unfold globalWork
  split
  · exact (follows_fnType h _ _ _).preserves.bind fun _ => Run.preserves_pure _
  · exact (follows_variableType h _ _).preserves

/-- A global that is not settled is worked out, and nothing happens to one that is. -/
theorem ends_resolveGlobal {id : GlobalId} {usedAt : Span}
    (hd : (resolveGlobal ask id usedAt).Ends c d) :
    d = c ∨ ¬ Settled (c.global id) ∧
      ((detached (globalWork ask (c.global id))).Ends (started c id) d ∨
        ∃ t value c₁, detached (globalWork ask (c.global id)) (started c id) = .ok (t, value) c₁ ∧
          d = completed c₁ id t value) := by
  unfold resolveGlobal at hd
  replace hd := Run.ends_get_bind hd
  dsimp only at hd
  split at hd
  case h_1 => exact .inl (Run.preserves_pure (P := (· = c)) _ hd rfl)
  case h_2 => exact .inl (Run.preserves_reject (P := (· = c)) _ _ hd rfl)
  case h_3 hresolving hcomplete =>
    refine .inr ⟨?_, ?_⟩
    · rintro (hstate | ⟨hstate, htype⟩)
      · exact hresolving hstate
      · obtain ⟨t, ht⟩ := Option.isSome_iff_exists.mp htype
        exact hcomplete t hstate ht
    · replace hd := Run.ends_modify_bind hd
      obtain hend | ⟨⟨t, value⟩, c₁, hdone, hend⟩ := Run.ends_bind hd
      · exact .inl hend
      · have hreturn := Run.ends_modify_bind hend
        exact .inr ⟨t, value, c₁, hdone, Run.preserves_pure (P := (· = completed c₁ id t value)) _
          hreturn rfl⟩

theorem resolveGlobal_eq_ok {id : GlobalId} {usedAt : Span} {t : Ty}
    (h : resolveGlobal ask id usedAt c = .ok t d) :
    d = c ∧ c.typeOf? id = some t ∨ ¬ Settled (c.global id) ∧ ∃ value c₁,
      detached (globalWork ask (c.global id)) (started c id) = .ok (t, value) c₁ ∧
        d = completed c₁ id t value := by
  unfold resolveGlobal at h
  obtain ⟨_, _, hget, hrest⟩ := Run.bind_eq_ok.mp h
  cases hget
  replace hrest : Gives _ c t d := hrest
  dsimp only at hrest
  split at hrest
  case h_1 hstate htype =>
    cases hrest
    exact .inl ⟨rfl, Context.typeOf?_eq_some.mpr ⟨hstate, htype⟩⟩
  case h_2 => cases hrest
  case h_3 hresolving hcomplete =>
    refine .inr ⟨?_, ?_⟩
    · rintro (hstate | ⟨hstate, htype⟩)
      · exact hresolving hstate
      · obtain ⟨u, hu⟩ := Option.isSome_iff_exists.mp htype
        exact hcomplete u hstate hu
    · obtain ⟨_, c₁, hstarted, hrest⟩ := Run.bind_eq_ok.mp hrest
      cases hstarted
      obtain ⟨⟨u, value⟩, c₂, hwork, hrest⟩ := Run.bind_eq_ok.mp hrest
      obtain ⟨_, c₃, hdone, hreturn⟩ := Run.bind_eq_ok.mp hrest
      cases hdone
      cases hreturn
      exact ⟨value, c₂, hwork, rfl⟩

/-- An identity that nothing was declared for has no type to work out. -/
theorem globalWork_lt {id : GlobalId} {t : Ty} {value : Option Const} {c' : Context}
    (h : globalWork ask (c.global id) c' = .ok (t, value) d) : id.index < c.globals.size := by
  by_contra hid
  rw [global_of_size_le (Nat.le_of_not_lt hid)] at h
  exact variableType_default h

theorem Elaborated.started (hc : Elaborated origin c) {id : GlobalId}
    (hid : ¬ Settled (c.global id)) : Elaborated origin (started c id) := by
  have horigin : ¬ Settled (origin.global id) := fun h => by
    rw [← hc.keeps.settled id h] at h
    exact hid h
  refine hc.modifyGlobal horigin ?_ (fun _ => rfl) fun _ decl owner t _ hstate => by cases hstate
  rw [Option.eq_none_iff_forall_ne_some]
  intro t ht
  obtain ⟨hstate, htype⟩ := Context.typeOf?_eq_some.mp ht
  exact hid (.inr ⟨hstate, by simp [htype]⟩)

section

variable (he : Elaborates ask)

include he

/-- A global stays as it is while its type is worked out. -/
theorem global_worked (hc : Elaborated origin c) {id : GlobalId} (hid : ¬ Settled (c.global id))
    {t : Ty} {value : Option Const}
    (h : detached (globalWork ask (c.global id)) (started c id) = .ok (t, value) d) :
    id.index < d.globals.size ∧ d.global id = { c.global id with state := .resolving } := by
  obtain ⟨c₁, hwork, -⟩ := Run.andFinally_eq_ok.mp h
  have hlt := globalWork_lt hwork
  have hstate : (Check.started c id).global id = { c.global id with state := .resolving } := by
    unfold Check.started
    rw [global_modifyGlobal, if_pos ⟨rfl, hlt⟩]
  have hkeeps := (elaborated_detached (preserves_globalWork he.stable.following _) (Run.ends_of_ok h)
    (hc.started hid).self).keeps
  have hsettled : Settled ((Check.started c id).global id) := by
    rw [hstate]
    exact .inl rfl
  refine ⟨hsettled.lt.trans_le hkeeps.globalCount, ?_⟩
  rw [hkeeps.settled id hsettled, hstate]

theorem elaborated_resolveGlobal (id : GlobalId) (usedAt : Span) :
    (resolveGlobal ask id usedAt).Preserves (Elaborated origin) := by
  intro c d hd hc
  obtain rfl | ⟨hid, hend | ⟨t, value, c₁, hwork, rfl⟩⟩ := ends_resolveGlobal hd
  · exact hc
  · exact elaborated_detached (preserves_globalWork he.stable.following _) hend (hc.started hid)
  · have hc₁ := elaborated_detached (preserves_globalWork he.stable.following _) (Run.ends_of_ok hwork)
      (hc.started hid)
    obtain ⟨-, hsame⟩ := global_worked he hc hid hwork
    have horigin : ¬ Settled (origin.global id) := fun h => by
      rw [← hc.keeps.settled id h] at h
      exact hid h
    refine hc₁.modifyGlobal horigin ?_ (fun _ => rfl) fun _ decl owner u hkind _ hu => ?_
    · unfold Context.typeOf?
      rw [hsame]
      rfl
    · rw [hsame] at hkind
      obtain ⟨c₂, hresolved, -⟩ := Run.andFinally_eq_ok.mp hwork
      cases hu
      exact globalWork_hasType hkind hresolved

/-- The type of a global is known behind an answer. -/
theorem typeOf?_resolveGlobal {id : GlobalId} {usedAt : Span} {t : Ty} (hc : c.WellTyped)
    (h : resolveGlobal ask id usedAt c = .ok t d) : d.typeOf? id = some t := by
  obtain ⟨rfl, ht⟩ | ⟨hid, value, c₁, hwork, rfl⟩ := resolveGlobal_eq_ok h
  · exact ht
  · obtain ⟨hlt, -⟩ := global_worked he ⟨.refl c, hc⟩ hid hwork
    have hglobal : (completed c₁ id t value).global id =
        { c₁.global id with type := some t, value, state := .complete } := by
      unfold completed
      rw [global_modifyGlobal, if_pos ⟨rfl, hlt⟩]
    exact Context.typeOf?_eq_some.mpr (by rw [hglobal]; exact ⟨rfl, rfl⟩)

end

end Check

end OwnLang
