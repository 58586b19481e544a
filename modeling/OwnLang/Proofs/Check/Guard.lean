import Mathlib
import OwnLang.Proofs.Check.TypedBody
import OwnLang.Proofs.Core.Permission

/-!
# Contexts that guard what is constant

A context is `Guarded` if the trees that it has accepted are, the defaults of fields and the bodies, and
if its methods that may change their receiver ask for one that may be changed. What it knows of names
(`Context.accessWith`) grows while checking goes on, like what it knows of types.

`Check.Yields` says of a run that, if it succeeds, it leads `Along` in the same function to a context
that is still guarded, and what its result is there. The parts of checking follow in the modules behind
this one.
-/

namespace OwnLang

open OwnLang.Core (AccessEnv)

/-- Whether it is a method that may change its receiver. -/
def Global.isMutator (g : Global) : Bool :=
  match g.kind with
  | .function decl (some _) => decl.kind = .method
  | _ => false

/-- A method that may change its receiver takes it by a pointer that may. -/
def Global.Receives (g : Global) : Prop :=
  ∀ t, g.isMutator → g.state = .complete → g.type = some t → ∃ target params variadic returns,
    t.shape = .func ((Shape.shared target false).plain :: params) variadic returns

namespace Context

/-- What is known of names that matters for writing, in a function with these locals. -/
def accessWith (c : Context) (locals : Array Local) : AccessEnv where
  slot id := locals[id.index]?.map (·.constant)
  global id := (c.typeOf? id).map fun _ => (c.global id).constant
  fields id :=
    if (c.struct id).state = .complete then some ((c.struct id).fields.map (·.constant)) else none
  mutator id := (c.typeOf? id).map fun _ => (c.global id).isMutator

/-- What is known of names that matters for writing, in the function that is being checked. -/
def access (c : Context) : AccessEnv := c.accessWith c.here.locals

end Context

/-- A field's default keeps to what may be written. -/
def Field.Guarded (Γ : AccessEnv) (f : Field) : Prop := ∀ e, f.default = some e → e.Guarded Γ

/-- A checked body keeps to what may be written. -/
def Body.Guarded (body : Body) (c : Context) : Prop := body.block.Guarded (c.accessWith body.locals)

/-- All that a context has accepted keeps to what may be written. -/
structure Context.Guarded (c : Context) : Prop where
  receivers : ∀ id, (c.global id).Receives
  defaults : ∀ id, ∀ f ∈ (c.struct id).fields, f.Guarded (c.accessWith #[])
  bodies : ∀ body ∈ c.bodies, body.Guarded c

variable {origin c d e : Context}

/-! ## What is known of names -/

namespace Context

theorem Keeps.access (h : c.Keeps d) (locals : Array Local) :
    (c.accessWith locals).Extends (d.accessWith locals) := by
  have hglobal {id : GlobalId} {t : Ty} (ht : c.typeOf? id = some t) : d.global id = c.global id := by
    obtain ⟨hstate, htype⟩ := typeOf?_eq_some.mp ht
    exact h.settled id (.inr ⟨hstate, by simp [htype]⟩)
  refine ⟨fun _ _ hb => hb, fun id b hb => ?_, fun id bs hbs => ?_, fun id b hb => ?_⟩
  · obtain ⟨t, ht, rfl⟩ := Option.map_eq_some_iff.mp hb
    exact Option.map_eq_some_iff.mpr ⟨t, (h.extends #[]).global id t ht, by rw [hglobal ht]⟩
  · simp only [accessWith, Option.ite_none_right_eq_some, Option.some.injEq] at hbs ⊢
    obtain ⟨hstate, rfl⟩ := hbs
    have hid : id.index < c.structs.size := struct_lt (by simp [hstate])
    obtain ⟨hstate', hfields'⟩ := h.structs id hid (by simp [hstate])
    exact ⟨hstate'.trans hstate, by rw [hfields']⟩
  · obtain ⟨t, ht, rfl⟩ := Option.map_eq_some_iff.mp hb
    exact Option.map_eq_some_iff.mpr ⟨t, (h.extends #[]).global id t ht, by rw [hglobal ht]⟩

/-- More locals are known. -/
theorem accessWith_extends (c : Context) {f g : Frame} (h : f.Grows g) :
    (c.accessWith f.locals).Extends (c.accessWith g.locals) where
  slot id b hb := by
    simp only [accessWith, Option.map_eq_some_iff] at hb ⊢
    obtain ⟨l, hl, rfl⟩ := hb
    have hid : id.index < f.locals.size := (Array.getElem?_eq_some_iff.mp hl).1
    have hid' : id.index < g.locals.size := hid.trans_le h.size
    refine ⟨g.locals[id.index], Array.getElem?_eq_getElem hid', ?_⟩
    have hlocal := congrArg Local.constant (h.localAt id hid)
    simpa [Frame.localAt, hid', hl] using hlocal
  global _ _ hb := hb
  fields _ _ hbs := hbs
  mutator _ _ hb := hb

/-- Locals of a function are known beside what is known outside of functions. -/
theorem accessWith_empty_extends (c : Context) (locals : Array Local) :
    (c.accessWith #[]).Extends (c.accessWith locals) where
  slot id b hb := by simp [accessWith] at hb
  global _ _ hb := hb
  fields _ _ hbs := hbs
  mutator _ _ hb := hb

/-- A global of which nothing is known changes. -/
theorem access_modifyGlobal {id : GlobalId} (change : Global → Global) (hid : c.typeOf? id = none)
    (locals : Array Local) :
    (c.accessWith locals).Extends ((c.modifyGlobal id change).accessWith locals) := by
  have hother {other : GlobalId} {t : Ty} (ht : c.typeOf? other = some t) :
      (c.modifyGlobal id change).global other = c.global other := by
    rw [Check.global_modifyGlobal, if_neg]
    rintro ⟨hindex, -⟩
    obtain rfl : id = other := congrArg GlobalId.mk hindex
    cases hid.symm.trans ht
  have htype {other : GlobalId} {t : Ty} (ht : c.typeOf? other = some t) :
      (c.modifyGlobal id change).typeOf? other = some t := by
    unfold typeOf?
    rw [hother ht]
    exact ht
  refine ⟨fun _ _ hb => hb, fun id b hb => ?_, fun _ _ hbs => hbs, fun id b hb => ?_⟩
  all_goals
    obtain ⟨t, ht, rfl⟩ := Option.map_eq_some_iff.mp hb
    exact Option.map_eq_some_iff.mpr ⟨t, htype ht, by rw [hother ht]⟩

/-- A struct that is not complete changes. -/
theorem access_modifyStruct {id : StructId} (change : StructDef → StructDef)
    (hid : (c.struct id).state ≠ .complete) (locals : Array Local) :
    (c.accessWith locals).Extends ((c.modifyStruct id change).accessWith locals) := by
  refine ⟨fun _ _ hb => hb, fun _ _ hb => hb, fun other bs hbs => ?_, fun _ _ hb => hb⟩
  have hother : (c.modifyStruct id change).struct other = c.struct other := by
    rw [Check.struct_modifyStruct, if_neg]
    rintro ⟨hindex, -⟩
    obtain rfl : id = other := congrArg StructId.mk hindex
    simp [accessWith, hid] at hbs
  simp only [accessWith, hother]
  exact hbs

/-- What a resolved global is known by. -/
theorem access_global {id : GlobalId} {t : Ty} (ht : c.typeOf? id = some t) :
    c.access.global id = some (c.global id).constant ∧
      c.access.mutator id = some (c.global id).isMutator := by
  simp [access, accessWith, ht]

/-- What the field of a complete struct is known by. -/
theorem access_field {id : StructId} {index : Nat} {field : Field}
    (hstate : (c.struct id).state = .complete) (hfield : (c.struct id).fields[index]? = some field) :
    ∃ bs, c.access.fields id = some bs ∧ bs[index]? = some field.constant :=
  ⟨_, if_pos hstate, by rw [List.getElem?_map, hfield, Option.map_some]⟩

end Context

theorem Field.Guarded.mono {Γ Δ : AccessEnv} {f : Field} (h : f.Guarded Γ) (hΔ : Γ.Extends Δ) :
    f.Guarded Δ := fun e he => (h e he).mono hΔ

namespace Check

/-! ## What keeps a context guarded -/

/-- A context is well typed and guarded, and has kept what an earlier one knew. -/
structure Guarding (origin c : Context) : Prop extends Elaborated origin c where
  guarded : c.Guarded

theorem Guarding.self (h : Guarding origin c) : Guarding c c := ⟨h.toElaborated.self, h.guarded⟩

/-- Some entities have changed, to guarded ones. -/
theorem Guarding.later (h : Guarding origin c) (hd : Elaborated origin d)
    (haccess : ∀ locals, (c.accessWith locals).Extends (d.accessWith locals))
    (hglobals : ∀ id, d.global id = c.global id ∨ (d.global id).Receives)
    (hstructs : ∀ id, (d.struct id).fields = (c.struct id).fields ∨
      ∀ f ∈ (d.struct id).fields, f.Guarded (d.accessWith #[]))
    (hbodies : d.bodies = c.bodies) : Guarding origin d where
  toElaborated := hd
  guarded.receivers id := (hglobals id).elim (fun hid => hid ▸ h.guarded.receivers id) fun hid => hid
  guarded.defaults id := by
    rcases hstructs id with hfields | hguarded
    · intro f hf
      exact (h.guarded.defaults id f (hfields ▸ hf)).mono (haccess #[])
    · exact hguarded
  guarded.bodies body hbody :=
    Core.Block.Guarded.mono (haccess _) (h.guarded.bodies body (hbodies ▸ hbody))

/-- Only the entities and the bodies matter. -/
theorem Guarding.of_eq (h : Guarding origin c) (hglobals : d.globals = c.globals)
    (hstructs : d.structs = c.structs) (hbodies : d.bodies = c.bodies) : Guarding origin d :=
  h.later (h.toElaborated.of_eq hglobals hstructs hbodies)
    (h.toElaborated.self.of_eq hglobals hstructs hbodies).keeps.access
    (fun id => .inl (global_of_eq hglobals id))
    (fun id => .inl (by rw [struct_of_eq hstructs])) hbodies

theorem guarding_additive : Additive (Guarding origin) where
  global c g pending hstate hvalue h := by
    refine h.later (elaborated_additive.global c g pending hstate hvalue h.toElaborated)
      (elaborated_additive.global c g pending hstate hvalue h.toElaborated.self).keeps.access
      (fun id => ?_) (fun id => .inl rfl) rfl
    rw [global_push]
    split
    · exact .inr fun t _ hcomplete => by simp [hstate] at hcomplete
    · exact .inl rfl
  struct c s hstate hfields h := by
    refine h.later (elaborated_additive.struct c s hstate hfields h.toElaborated)
      (elaborated_additive.struct c s hstate hfields h.toElaborated.self).keeps.access
      (fun id => .inl rfl) (fun id => ?_) rfl
    rw [struct_push]
    split
    · exact .inr fun f hf => by simp [hfields] at hf
    · exact .inl rfl
  member c id members h := by
    refine h.later (elaborated_additive.member c id members h.toElaborated)
      (elaborated_additive.member c id members h.toElaborated.self).keeps.access
      (fun id => .inl rfl) (fun other => .inl ?_) rfl
    rw [struct_modifyStruct]
    split <;> rfl
  typeAlias _ _ _ h := h.of_eq rfl rfl rfl
  macroDef _ _ _ _ h := h.of_eq rfl rfl rfl

theorem guarding_detached {α : Type} {work : Check α} (h : work.Preserves (Guarding origin)) :
    (detached work).Preserves (Guarding origin) := by
  intro c d hd hc
  obtain ⟨e, hwork, rfl⟩ := Run.ends_andFinally hd
  exact (h hwork (hc.of_eq rfl rfl rfl)).of_eq rfl rfl rfl

theorem guarding_modifyFrame (change : Frame → Frame) :
    (modifyFrame change).Preserves (Guarding origin) :=
  Run.preserves_modify fun _ hc => hc.of_eq rfl rfl rfl

/-! ## Where checking goes on -/

/-- Expressions can be checked here, and what they are checked to is guarded. Inside methods `this`
is constant. -/
structure Watched (c : Context) : Prop where
  ready : Ready c
  guarded : c.Guarded
  receiver : ∀ this id, c.here.receiver = some (this, id) → (slotOf c this).constant = true

/-- Checking goes on in the same function, and what was known is still known. -/
structure Along (c d : Context) : Prop where
  watched : Watched d
  typed : Onward c d
  grows : c.access.Extends d.access

theorem Along.refl (hc : Watched c) : Along c c := ⟨hc, .refl hc.ready, .refl _⟩

theorem Along.trans (h : Along c d) (h' : Along d e) : Along c e :=
  ⟨h'.watched, h.typed.trans h'.typed, h.grows.trans h'.grows⟩

theorem Watched.guarding (hc : Watched c) : Guarding c c := ⟨hc.ready.elaborated, hc.guarded⟩

/-- What is kept of entities and frames is what guarding needs. -/
theorem Watched.along (hc : Watched c) (hkept : Guarding c d) (hsteps : c.Steps Frame.Advances d) :
    Along c d := by
  have hgrows := hsteps.here (.refl _)
  refine ⟨⟨(hc.ready.onward hkept.toElaborated hsteps).ready, hkept.guarded, ?_⟩,
    hc.ready.onward hkept.toElaborated hsteps,
    (c.accessWith_extends hgrows.toGrows).trans (hkept.keeps.access d.here.locals)⟩
  intro this id hreceiver
  rw [hgrows.receiver] at hreceiver
  obtain ⟨hthis, -⟩ := hc.ready.visible.receiver this id hreceiver
  exact (congrArg Local.constant (hgrows.localAt this hthis)).trans (hc.receiver this id hreceiver)

/-- Where checking leads while it goes on. -/
def onWatch : Way Context where
  ready := Watched
  along := Along
  refl := .refl
  trans := .trans
  arrives := Along.watched

/-- A run that, if it succeeds, leads along and yields what it should. -/
abbrev Yields {α : Type} (c : Context) (x : Check α) (Q : Context → α → Prop) : Prop :=
  Run.Yields onWatch c x Q

theorem yields_frame_bind {β : Type} {R : Context → β → Prop} {f : Frame → Check β}
    (h : Yields c (f c.here) R) : Yields c (frame >>= f) R := h

end Check

/-! ## Answers -/

/-- What an expression denotes keeps to what may be written. -/
def Denoted.Guarded (Γ : AccessEnv) : Denoted → Prop
  | .value e => e.Guarded Γ
  | .place p => p.Guarded Γ

namespace Check

open Run (yields_pure yields_reject_bind)

variable {ask : Asker} {scope : Scope}

/-- What an answer grants in the context that it leaves behind. Statements stand in a function. -/
def Granted (d : Context) : (q : Query) → q.Answer → Prop
  | .value .., e => e.Guarded d.access
  | .denoted .., denoted => denoted.Guarded d.access
  | .stmt .., s => d.frame.isSome → s.Guarded d.access
  | .block .., (b, _) => d.frame.isSome → b.Guarded d.access
  | .type .., _ | .typeAlias .., _ | .layout .., _ | .global .., _ => True

/-- Answers keep contexts guarded, and grant what they should. -/
structure Guardian (ask : Asker) : Prop where
  elaborates : Elaborates ask
  keeps : ∀ origin q, (ask q).Preserves (Guarding origin)
  sound : ∀ {c d : Context} {q : Query} {a : q.Answer}, Watched c → ask q c = .ok a d → Granted d q a

section

variable (hg : Guardian ask)

include hg

/-- What an expression query is answered, and where that leads. -/
theorem Guardian.answer {q : Query} (hq : q.isExpr) :
    Yields c (ask q) fun d a => Granted d q a ∧ Promised d q a := by
  intro hc a d h
  have hcd := hc.along (hg.keeps c q (Run.ends_of_ok h) hc.guarding)
    (hg.elaborates.steady.expr hq h).rests.advances
  exact ⟨hcd, hg.sound hc h, hg.elaborates.sound hc.ready h⟩

theorem yields_value {e : Surface.Expr} {expected : Option Ty} :
    Yields c (ask (.value e expected scope)) fun d v => v.Guarded d.access :=
  (hg.answer rfl).mono fun _ _ _ h => h.1

theorem yields_denoted {e : Surface.Expr} {write : Bool} :
    Yields c (ask (.denoted e write scope)) fun d denoted => denoted.Guarded d.access :=
  (hg.answer rfl).mono fun _ _ _ h => h.1

theorem yields_type {t : Surface.TypeExpr} : Yields c (ask (.type t scope)) fun _ _ => True :=
  (hg.answer rfl).mono fun _ _ _ h => h.1

/-- The type of a global is known behind an answer. -/
theorem yields_global {id : GlobalId} {span : Span} :
    Yields c (ask (.global id span)) fun d t => d.typeOf? id = some t :=
  (hg.answer rfl).mono fun _ _ _ h => h.2

theorem yields_layout {id : StructId} {span : Span} :
    Yields c (ask (.layout id span)) fun d _ => (d.struct id).state = .complete :=
  (hg.answer rfl).mono fun _ _ _ h => h.2

theorem yields_complete {t : Ty} {span : Span} :
    Yields c (ask.complete t span) fun _ _ => True := by
  unfold Asker.complete
  split
  · exact (yields_layout hg).mono fun _ _ _ _ => trivial
  · exact yields_pure fun _ => trivial

theorem yields_annotatedType {t : Option Surface.TypeExpr} :
    Yields c ( resolveAnnotation ask t scope) fun _ _ => True := by
  cases t with
  | none => exact yields_pure fun _ => trivial
  | some t => exact (yields_type hg).map fun _ _ _ _ => trivial

/-! ## Structs -/

theorem yields_resolveField {before : List Field} {decl : Surface.VarDecl} :
    Yields c (resolveField ask scope before decl) fun d f => f.Guarded d.access := by
  unfold resolveField
  extract_lets +onlyGivenNames declare
  have hdeclare : Yields c (declare ⟨⟩) fun d f => f.Guarded d.access := by
    refine (yields_annotatedType hg).bind fun declared d hcd _ => ?_
    extract_lets +onlyGivenNames withDefault
    have hdefault (default : Option Core.Expr) (e : Context)
        (hvalue : ∀ v, default = some v → v.Guarded e.access) :
        Yields e (withDefault default) fun d f => f.Guarded d.access := by
      dsimp -zeta only [withDefault]
      extract_lets +onlyGivenNames withType
      have htype (t : Ty) : Yields e (withType t) fun d f => f.Guarded d.access := by
        refine Run.Yields.bind (Q := fun _ _ => True) ?_ fun _ f hef _ =>
          (yields_complete hg).bind fun _ g hfg _ => .unless (yields_pure fun _ v hv => ?_)
        · exact .of_preserves (preserves_requireValueType t _) fun _ _ => trivial
        · exact (hvalue v hv).mono (hef.trans hfg).grows
      split
      · exact htype _
      · exact htype _
      · exact yields_reject_bind _ _ _
    split
    · exact hdefault none d fun v hv => by cases hv
    · refine .bind (Q := fun e default => ∀ v, default = some v → v.Guarded e.access) ?_
        fun default e _ hvalue => hdefault default e hvalue
      refine (yields_value hg).map fun v e _ hv v' hv' => ?_
      cases hv'
      exact hv
  split
  · exact fun _ _ _ hrun => by cases hrun
  · exact hdeclare

theorem yields_resolveFields {decls : List Surface.VarDecl} {done : List Field}
    (hdone : ∀ f ∈ done, f.Guarded c.access) :
    Yields c (resolveFields ask scope done decls) fun d fields => ∀ f ∈ fields, f.Guarded d.access := by
  induction decls generalizing c done with
  | nil => exact yields_pure fun _ => hdone
  | cons decl rest ih =>
    refine (yields_resolveField hg).bind fun next d hcd hnext => ih fun f hf => ?_
    rcases List.mem_append.mp hf with hf | hf
    · exact (hdone f hf).mono hcd.grows
    · rw [List.mem_singleton.mp hf]
      exact hnext

omit hg in
theorem Guarding.laying (hc : Guarding origin c) {id : StructId}
    (hstate : (c.struct id).state = .declared) : Guarding origin (laying c id) := by
  refine hc.later (hc.toElaborated.laying hstate) (Context.access_modifyStruct _ (by simp [hstate]))
    (fun _ => .inl rfl) (fun other => .inl ?_) rfl
  unfold Check.laying
  rw [struct_modifyStruct]
  split <;> rfl

theorem guarding_structWork (s : StructDef) : (structWork ask s).Preserves (Guarding origin) :=
  guarding_detached (preserves_resolveFields (fun q _ => hg.keeps origin q) _ _ _)

omit hg in
/-- Where no function is open, only what is known outside of functions is. -/
theorem access_of_none (h : c.frame = none) : c.access = c.accessWith #[] := by
  unfold Context.access Context.here
  rw [h]
  rfl

theorem guarded_structWork (hc : Guarding origin c) {id : StructId}
    (hstate : (c.struct id).state = .declared) {fields : List Field}
    (h : structWork ask (c.struct id) (laying c id) = .ok fields d) :
    ∀ f ∈ fields, f.Guarded (d.accessWith #[]) := by
  obtain ⟨c₁, hwork, rfl⟩ := Run.andFinally_eq_ok.mp h
  have hlaying : Guarding origin { Check.laying c id with frame := none } :=
    (hc.laying hstate).of_eq rfl rfl rfl
  have hwatched : Watched { Check.laying c id with frame := none } :=
    ⟨⟨hlaying.wellTyped, Frame.scoped_default⟩, hlaying.guarded, fun _ _ hreceiver => by
      cases hreceiver⟩
  obtain ⟨hc₁, hfields⟩ := yields_resolveFields hg (fun f hf => by cases hf) hwatched hwork
  have hframe : c₁.frame = none := by simpa using hc₁.typed.frame
  exact access_of_none hframe ▸ hfields

theorem guarding_resolveStruct (id : StructId) (usedAt : Span) :
    (resolveStruct ask id usedAt).Preserves (Guarding origin) := by
  intro c d hd hc
  have hlast := elaborated_resolveStruct hg.elaborates id usedAt hd hc.toElaborated
  obtain rfl | ⟨hstate, hend | ⟨fields, c₁, hwork, rfl | rfl⟩⟩ := ends_resolveStruct hd
  · exact hc
  · exact guarding_structWork hg _ hend (hc.laying hstate)
  · exact guarding_structWork hg _ (Run.ends_of_ok hwork) (hc.laying hstate)
  · obtain ⟨-, hresolving, -⟩ := sound_structWork hg.elaborates hc.toElaborated hstate hwork
    have haccess : ∀ locals, (c₁.accessWith locals).Extends
        ((c₁.modifyStruct id fun s => { s with fields, state := .complete }).accessWith locals) :=
      Context.access_modifyStruct _ (by simp [hresolving])
    refine (guarding_structWork hg _ (Run.ends_of_ok hwork) (hc.laying hstate)).later hlast haccess
      (fun _ => .inl rfl) (fun other => ?_) rfl
    have hguarded := guarded_structWork hg hc hstate hwork
    unfold laidOut
    rw [struct_modifyStruct]
    split
    · exact .inr fun f hf => (hguarded f hf).mono (haccess #[])
    · exact .inl rfl

/-- Contexts stay guarded through every part of checking an expression. -/
theorem Guardian.stable : Stable ask (Guarding origin) where
  answers q _ := hg.keeps origin q
  detached := guarding_detached
  consume := preserves_consume guarding_modifyFrame
  aliasStarted _ _ hc := hc.of_eq rfl rfl rfl
  aliasDone _ _ _ hc := hc.of_eq rfl rfl rfl
  structResolved := guarding_resolveStruct hg
  macroDone _ _ _ _ hc := hc.of_eq rfl rfl rfl
  instantiate := preserves_instantiate guarding_additive (fun q _ => hg.keeps origin q)
    guarding_detached (fun _ _ _ hc => hc.of_eq rfl rfl rfl) fun _ _ _ hc => hc.of_eq rfl rfl rfl

/-- A part of checking an expression leads along. -/
theorem Guardian.evaluated {α : Type} {work : Check α}
    (hwork : ∀ P, Stable ask P → work.Preserves P) : Yields c work fun _ _ => True := by
  intro hc a d h
  exact ⟨hc.along (hwork _ hg.stable (Run.ends_of_ok h) hc.guarding)
    (hg.elaborates.steady.evaluated h hwork).rests.advances, trivial⟩

/-! ## Functions -/

omit hg in
theorem fnType_receives {decl : Surface.FnDecl} {owner : StructId} {t : Ty}
    (hmethod : decl.kind = .method) (h : fnType ask decl (some owner) scope c = .ok t d) :
    ∃ target params variadic returns,
      t.shape = .func ((Shape.shared target false).plain :: params) variadic returns := by
  unfold fnType at h
  obtain ⟨_, _, hget, hrest⟩ := Run.bind_eq_ok.mp h
  cases hget
  obtain ⟨params, c₁, -, hrest⟩ := Run.bind_eq_ok.mp hrest
  obtain ⟨returns, c₂, -, hreturn⟩ := Run.bind_eq_ok.mp hrest
  cases hreturn
  refine ⟨c.structType owner, params, decl.variadic, returns, ?_⟩
  simp only [receiverTypes, hmethod, Surface.FnKind.isMethod, if_true]
  rfl

omit hg in
theorem globalWork_receives {g : Global} {t : Ty} {value : Option Const} (hg : g.isMutator)
    (h : globalWork ask g c = .ok (t, value) d) : ∃ target params variadic returns,
      t.shape = .func ((Shape.shared target false).plain :: params) variadic returns := by
  unfold Global.isMutator at hg
  unfold globalWork at h
  split at hg
  · rename_i decl owner hkind
    rw [hkind] at h
    obtain ⟨u, c₁, hu, hreturn⟩ := Run.bind_eq_ok.mp h
    cases hreturn
    exact fnType_receives (by simpa using hg) hu
  · cases hg

omit hg in
theorem Guarding.started (hc : Guarding origin c) {id : GlobalId}
    (hid : ¬ Settled (c.global id)) : Guarding origin (started c id) := by
  have hnone : c.typeOf? id = none := by
    rw [Option.eq_none_iff_forall_ne_some]
    intro t ht
    obtain ⟨hstate, htype⟩ := Context.typeOf?_eq_some.mp ht
    exact hid (.inr ⟨hstate, by simp [htype]⟩)
  refine hc.later (hc.toElaborated.started hid) (Context.access_modifyGlobal _ hnone)
    (fun other => ?_) (fun _ => .inl rfl) rfl
  unfold Check.started
  rw [global_modifyGlobal]
  split
  · exact .inr fun t _ hstate => by cases hstate
  · exact .inl rfl

theorem guarding_resolveGlobal (id : GlobalId) (usedAt : Span) :
    (resolveGlobal ask id usedAt).Preserves (Guarding origin) := by
  intro c d hd hc
  have hlast := elaborated_resolveGlobal hg.elaborates id usedAt hd hc.toElaborated
  obtain rfl | ⟨hid, hend | ⟨t, value, c₁, hwork, rfl⟩⟩ := ends_resolveGlobal hd
  · exact hc
  · exact guarding_detached (preserves_globalWork hg.stable.following _) hend (hc.started hid)
  · have hc₁ := guarding_detached (preserves_globalWork hg.stable.following _) (Run.ends_of_ok hwork)
      (hc.started hid)
    obtain ⟨-, hsame⟩ := global_worked hg.elaborates hc.toElaborated hid hwork
    obtain ⟨c₂, hresolved, -⟩ := Run.andFinally_eq_ok.mp hwork
    have hnone : c₁.typeOf? id = none := by
      unfold Context.typeOf?
      rw [hsame]
      rfl
    refine hc₁.later hlast (Context.access_modifyGlobal _ hnone) (fun other => ?_)
      (fun _ => .inl rfl) rfl
    unfold completed
    rw [global_modifyGlobal]
    split
    · rename_i hindex
      obtain rfl : id = other := congrArg GlobalId.mk hindex.1
      refine .inr fun u hmutator _ hu => ?_
      cases hu
      rw [hsame] at hmutator
      exact globalWork_receives (g := c.global id) hmutator hresolved
    · exact .inl rfl

end

end Check

end OwnLang
