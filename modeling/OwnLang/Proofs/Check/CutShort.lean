import Mathlib
import OwnLang.Proofs.Check.Moments
import OwnLang.Proofs.Check.Resolving
import OwnLang.Proofs.Check.Roll

/-!
# Resolution that is cut short

A request that is cut short at some question is followed by the same request that is cut short later
or not at all: what is resolved where the first one ends is resolved in the same way where the second
one ends (`Course.resolution`). Aliases, structs, globals and instances of templates are the same in
every such course; what is said of macros is left open (`MacroLaw`), since their signatures are the
one thing that may be written more than once.
-/

namespace OwnLang

open Surface (Ident)

namespace Context

variable {c d e : Context}

/-- The entities that there were are spared, and the macros are the same. -/
structure Proceeds (c d : Context) : Prop where
  spares : c.Continues Resolvable.Spares d
  orderly : c.Orderly → d.Orderly
  macros : d.macros = c.macros
  frame : c.frame = none → d.frame = none

theorem Proceeds.trans (h : c.Proceeds d) (h' : d.Proceeds e) : c.Proceeds e where
  spares := h.spares.trans .trans h'.spares
  orderly hc := h'.orderly (h.orderly hc)
  macros := h'.macros.trans h.macros
  frame hc := h'.frame (h.frame hc)

theorem Shares.proceeds (h : c.Shares d) (hframe : c.frame = none → d.frame = none) :
    c.Proceeds d := ⟨h.continues .refl, h.orderly, h.macros, hframe⟩

theorem proceeds_refl (c : Context) : c.Proceeds c := (c.shares_frame c.frame).proceeds id

/-! ## Declarations -/

theorem exact_withMembers {s : StructDef} {members : List (String × GlobalId)}
    (h : StructDef.resolvable.Exact s) : StructDef.resolvable.Exact { s with members } :=
  ⟨h.filled, h.blank⟩

theorem Orderly.withGlobal (h : c.Orderly) {g : Global} (hg : Global.resolvable.Exact g) :
    (c.withGlobal g).Orderly :=
  { h with
    globals := fun g' hg' => by
      rcases Array.mem_push.mp hg' with hg' | rfl
      · exact h.globals g' hg'
      · exact hg }

theorem Orderly.withStruct (h : c.Orderly) {s : StructDef} (hs : StructDef.resolvable.Exact s) :
    (c.withStruct s).Orderly :=
  { h with
    structs := fun s' hs' => by
      rcases Array.mem_push.mp hs' with hs' | rfl
      · exact h.structs s' hs'
      · exact hs
    members := fun p hp m hm id hid => by
      rw [size_withStruct]
      exact (h.members p hp m hm id hid).trans (Nat.lt_succ_self _)
    instances := fun t ht made hmade id hid => by
      rw [size_withStruct]
      exact (h.instances t ht made hmade id hid).trans (Nat.lt_succ_self _) }

theorem Orderly.withMethod (h : c.Orderly) {g : Global} (hg : Global.resolvable.Exact g)
    (owner : StructId) : (c.withMethod owner g).Orderly :=
  { h.withGlobal hg with
    structs := fun s hs => by
      dsimp only [Context.withMethod, Context.withGlobal, Context.modifyStruct] at hs
      obtain hs | ⟨s', hs', rfl⟩ := mem_modify hs
      · exact h.structs s hs
      · exact exact_withMembers (h.structs s' (Array.mem_of_getElem? hs'))
    members := fun p hp m hm id hid => by
      rw [size_withMethod]
      exact h.members p hp m hm id hid
    instances := fun t ht made hmade id hid => by
      rw [size_withMethod]
      exact h.instances t ht made hmade id hid }

theorem Orderly.newStruct (h : c.Orderly) {decl : Surface.StructDecl} {scope : Scope}
    {symbol display : String} {isInstance : Bool} :
    (c.newStruct decl scope symbol display isInstance).Orderly :=
  withMethods_induction (h.withStruct ⟨fun hcomplete => by (cases hcomplete), fun _ => rfl⟩)
    fun _ hd _ _ => hd.withMethod ⟨fun hcomplete => by (cases hcomplete), fun _ => ⟨rfl, rfl⟩⟩ _

theorem Adds.spares (h : c.Adds d) : c.Continues Resolvable.Spares d where
  packages := h.packages ▸ .refl .refl _
  templates := h.templates ▸ .refl .refl _
  aliases := h.aliases ▸ .refl .refl _
  globals i g hg := by
    have hi : i < c.globals.size := (Array.getElem?_eq_some_iff.mp hg).1
    have hsame : d.global ⟨i⟩ = c.global ⟨i⟩ := h.globals ⟨i⟩ hi
    refine ⟨g, ?_, .refl g⟩
    rw [getElem?_of_lt (hi.trans_le h.globalCount), ← hg, getElem?_of_lt hi]
    exact congrArg some hsame
  structs i s hs := by
    have hi : i < c.structs.size := (Array.getElem?_eq_some_iff.mp hs).1
    have hsame : d.struct ⟨i⟩ = c.struct ⟨i⟩ := h.structs ⟨i⟩ hi
    refine ⟨s, ?_, .refl s⟩
    rw [getElem?_of_lt (hi.trans_le h.structCount), ← hs, getElem?_of_lt hi]
    exact congrArg some hsame
  listed := by
    unfold listed
    rw [h.packages]

theorem Adds.proceeds (h : c.Adds d) (horderly : c.Orderly → d.Orderly) : c.Proceeds d :=
  ⟨h.spares, horderly, h.macros, fun hc => h.frame.trans hc⟩

theorem proceeds_withAlias (c : Context) {a : AliasDef} (ha : AliasDef.resolvable.Exact a) :
    c.Proceeds (c.withAlias a) where
  spares := { Continues.refl .refl c with aliases := (Retained.refl .refl c.aliases).push a }
  orderly hc := { hc with
    aliases := fun a' ha' => by
      rcases Array.mem_push.mp ha' with ha' | rfl
      · exact hc.aliases a' ha'
      · exact ha }
  macros := rfl
  frame := id

/-- What is entered into the record of a template. -/
theorem proceeds_addInstance (c : Context) (id : TemplateId) (args : List Ty) {entity : Entity}
    (h : c.declares entity) : c.Proceeds (c.addInstance id { args, entity }) where
  spares := { Continues.refl .refl c with
    templates := (Retained.refl .refl c.templates).modify fun _ _ _ _ h =>
      ⟨h.declared, h.instances.trans (List.prefix_append _ _)⟩ }
  orderly hc := { hc with
    instances := fun t ht made hmade s hs => by
      dsimp only [Context.addInstance] at ht
      obtain ht | ⟨t', ht', rfl⟩ := mem_modify ht
      · exact hc.instances t ht made hmade s hs
      · rcases List.mem_append.mp hmade with hmade | hmade
        · exact hc.instances t' (Array.mem_of_getElem? ht') made hmade s hs
        · obtain rfl := List.mem_singleton.mp hmade
          subst hs
          exact h }
  macros := rfl
  frame h := h

theorem listed_modifyPackage (c : Context) (id : PackageId) {change : Package → Package}
    (h : ∀ p, (change p).name = p.name ∧ (change p).members = p.members) :
    (c.modifyPackage id change).listed = c.listed := by
  refine Array.ext_getElem? fun i => ?_
  unfold listed modifyPackage
  simp only [Array.getElem?_map, Array.getElem?_modify]
  split
  · rw [Option.map_map]
    exact congrFun (congrArg _ (funext fun p => by simp [h p])) _
  · rfl

theorem continues_withMacro (c : Context) (package : PackageId) (name : String) (m : MacroDef) :
    c.Continues Resolvable.Spares (c.withMacro package name m) where
  toCarries := { (Continues.refl .refl c).toCarries with
    packages := (Retained.refl .refl c.packages).modify fun _ _ _ _ hpq =>
      ⟨hpq.name, hpq.members, hpq.macros.trans (List.prefix_append _ _)⟩ }
  listed := listed_modifyPackage _ _ fun _ => ⟨rfl, rfl⟩

theorem Orderly.withMacro (h : c.Orderly) (package : PackageId) (name : String) (m : MacroDef) :
    (c.withMacro package name m).Orderly :=
  { h with
    members := fun p hp => by
      dsimp only [Context.withMacro, Context.modifyPackage] at hp
      obtain hp | ⟨q, hq, rfl⟩ := mem_modify hp
      · exact h.members p hp
      · exact h.members q (Array.mem_of_getElem? hq) }

end Context

/-- Wherever the cut stops, the other one does so too. -/
def Cut.Within (cut cut' : Cut) : Prop := ∀ q c, cut' q c = none → cut q c = none

/-- Nothing was found out of the macro yet. -/
structure MacroDef.Fresh (m : MacroDef) : Prop where
  state : m.state = .declared
  blank : MacroDef.resolvable.blank m

namespace Check

variable {ask ask' : Asker} {c d : Context}

/-- A declaration adds an entity behind the others, or a macro, which is no member, to a package. -/
theorem declareEntity_eq_ok {kind : Surface.ItemKind} {scope : Scope} {names : Option InstanceNames}
    {member : Option Member} (h : declareEntity kind scope names c = .ok member d) :
    c.Proceeds d ∨ member = none ∧ ∃ package name m, m.Fresh ∧ d = c.withMacro package name m := by
  cases kind with
  | function decl =>
    rw [Context.declareEntity_function] at h
    cases h
    exact .inl (((Context.Adds.refl c).withGlobal _).proceeds fun hc =>
      hc.withGlobal ⟨fun hcomplete => by (cases hcomplete), fun _ => ⟨rfl, rfl⟩⟩)
  | struct decl =>
    rw [Context.declareEntity_struct] at h
    cases h
    exact .inl (Context.adds_newStruct.proceeds fun hc => hc.newStruct)
  | global decl =>
    rw [Context.declareEntity_global] at h
    cases h
    exact .inl (((Context.Adds.refl c).withGlobal _).proceeds fun hc =>
      hc.withGlobal ⟨fun hcomplete => by (cases hcomplete), fun _ => ⟨rfl, rfl⟩⟩)
  | typeAlias name target =>
    rw [Context.declareEntity_typeAlias] at h
    cases h
    exact .inl (c.proceeds_withAlias ⟨fun hcomplete => by (cases hcomplete), fun _ => rfl⟩)
  | macroDecl decl =>
    rw [Context.declareEntity_macroDecl] at h
    obtain ⟨_, e, hmacro, hreturn⟩ := Run.bind_eq_ok.mp h
    cases hreturn
    obtain ⟨_, _, hget, hmacro⟩ := Run.bind_eq_ok.mp hmacro
    cases hget
    cases hfound : (c.package scope.package).macro? decl.name.name with
    | some existing =>
      rw [hfound] at hmacro
      cases hmacro
    | none =>
      rw [hfound] at hmacro
      cases hmacro
      exact .inr ⟨rfl, _, _, _, ⟨rfl, rfl, rfl⟩, rfl⟩

/-- What a template can make an instance of is no macro. -/
theorem proceeds_declareEntity {kind : Surface.ItemKind} {scope : Scope}
    {names : Option InstanceNames} {member : Option Member} {entity : Entity}
    (h : declareEntity kind scope names c = .ok member d) (hmade : madeEntity? member = some entity) :
    c.Proceeds d := by
  rcases declareEntity_eq_ok h with hproceeds | ⟨rfl, -⟩
  · exact hproceeds
  · cases hmade

end Check

/-! ## Courses -/

/-- What a course tells of macros. Steps that leave them alone are part of it, with and without a
frame, and so is the declaration of a macro. -/
structure MacroLaw where
  /-- Where resolution may begin. -/
  ready : Context → Prop
  moves : Context → Context → Prop
  done : Context → Context → Prop
  after : Context → Context → Prop
  still : ∀ {c d : Context}, c.Continues Resolvable.Progresses d → d.macros = c.macros →
    (c.frame = none → d.frame = none) → moves c d ∧ done c d
  declared : ∀ {c d : Context} {m : MacroDef}, c.Continues Resolvable.Progresses d → m.Fresh →
    d.macros = c.macros.push m → d.frame = c.frame → moves c d
  detached : ∀ {c d : Context}, moves (c.inFrame none) d → moves c (d.inFrame c.frame)
  detached_done : ∀ {c d : Context}, done (c.inFrame none) d → done c (d.inFrame c.frame)
  detached_after : ∀ {c d : Context} (frame), after c d → after (c.inFrame frame) (d.inFrame frame)
  moves_trans : ∀ {c d e : Context}, d.Continues Resolvable.Progresses e → moves c d → moves d e →
    moves c e
  done_trans : ∀ {c d e : Context}, done c d → done d e → done c e
  ready_done : ∀ {c d : Context}, ready c → moves c d → done c d → ready d
  after_of_moves : ∀ {c d : Context}, moves c d → after c d
  after_trans : ∀ {c d e : Context}, after c d → after d e → after c e

namespace MacroLaw

/-- Where a run of resolution can lead. -/
structure Moves (M : MacroLaw) (c d : Context) : Prop where
  spares : c.Continues Resolvable.Spares d
  orderly : c.Orderly → d.Orderly
  macros : M.moves c d

variable {M : MacroLaw} {c d e : Context}

theorem Moves.trans (h : M.Moves c d) (h' : M.Moves d e) : M.Moves c e where
  spares := h.spares.trans .trans h'.spares
  orderly hc := h'.orderly (h.orderly hc)
  macros := M.moves_trans h'.spares.progresses h.macros h'.macros

theorem moves_proceeds (h : c.Proceeds d) : M.Moves c d :=
  ⟨h.spares, h.orderly, (M.still h.spares.progresses h.macros h.frame).1⟩

theorem done_proceeds (h : c.Proceeds d) : M.done c d :=
  (M.still h.spares.progresses h.macros h.frame).2

end MacroLaw

/-- The course of resolution: the entities that there were are spared. -/
def Course.resolution (M : MacroLaw) : Course Context where
  ready c := c.Orderly ∧ M.ready c
  moves := M.Moves
  done := M.done
  after c d := c.Continues Resolvable.Progresses d ∧ M.after c d
  moves_refl c := MacroLaw.moves_proceeds c.proceeds_refl
  moves_trans h h' := h.trans h'
  done_refl c := MacroLaw.done_proceeds c.proceeds_refl
  done_trans _ h _ h' := M.done_trans h h'
  ready_done hc h hdone := ⟨h.orderly hc.1, M.ready_done hc.2 h.macros hdone⟩
  after_of_moves h := ⟨h.spares.progresses, M.after_of_moves h.macros⟩
  after_trans h h' := ⟨h.1.trans .trans h'.1, M.after_trans h.2 h'.2⟩

namespace Check

variable {M : MacroLaw} {ask ask' : Asker} {α β : Type} {c d : Context} {x y : Check α}

theorem moves_declareEntity {kind : Surface.ItemKind} {scope : Scope} {names : Option InstanceNames}
    {member : Option Member} (h : declareEntity kind scope names c = .ok member d) : M.Moves c d := by
  rcases declareEntity_eq_ok h with hproceeds | ⟨-, package, name, m, hm, rfl⟩
  · exact MacroLaw.moves_proceeds hproceeds
  · exact ⟨c.continues_withMacro package name m, fun hc => hc.withMacro package name m,
      M.declared (c.continues_withMacro package name m).progresses hm rfl rfl⟩

theorem followsFrom_proceeds (h : ∀ d, x.Ends c d → c.Proceeds d) :
    x.FollowsFrom (.resolution M) c x :=
  Run.followsFrom_of_same (fun d hd => MacroLaw.moves_proceeds (h d hd))
    fun _ d hd => MacroLaw.done_proceeds (h d (Run.ends_of_ok hd))

theorem preserves_modifyFrame_proceeds (c : Context) (change : Frame → Frame) :
    (modifyFrame change).Preserves c.Proceeds :=
  Run.preserves_modify fun d hd =>
    hd.trans ((d.shares_frame _).proceeds fun hframe => by rw [hframe]; rfl)

/-- A run that keeps what proceeds from a context follows itself. -/
theorem follows_proceeds (h : ∀ c : Context, x.Preserves c.Proceeds) : x.Follows (.resolution M) x :=
  fun c _ => followsFrom_proceeds fun _ hd => h c hd c.proceeds_refl

theorem ready_inFrame (hc : (Course.resolution M).ready c) :
    (Course.resolution M).ready (c.inFrame none) :=
  have h : c.Proceeds (c.inFrame none) := (c.shares_frame none).proceeds fun _ => rfl
  (Course.resolution M).ready_done hc (MacroLaw.moves_proceeds h) (MacroLaw.done_proceeds h)

theorem follows_detached (h : x.Follows (.resolution M) y) :
    (detached x).Follows (.resolution M) (detached y) := by
  intro c hc
  have haround : Run.FollowsFrom (.resolution M) c
      (fun _ => x.andFinally (·.inFrame c.frame) (c.inFrame none))
      fun _ => y.andFinally (·.inFrame c.frame) (c.inFrame none) := by
    refine (h (c.inFrame none) (ready_inFrame hc)).around (fun d hd => ?_) (fun d _ hd => ?_)
      fun d e hde => ?_
    · exact ⟨((c.shares_frame none).continues .refl).trans .trans
        (hd.spares.trans .trans ((d.shares_frame c.frame).continues .refl)),
        fun hc => (d.shares_frame c.frame).orderly (hd.orderly ((c.shares_frame none).orderly hc)),
        M.detached hd.macros⟩
    · exact M.detached_done hd
    · exact ⟨((d.shares_frame c.frame).symm.continues .refl).trans .trans
        (hde.1.trans .trans ((e.shares_frame c.frame).continues .refl)),
        M.detached_after c.frame hde.2⟩
  exact haround.of_eq rfl rfl

/-- Work on an entity that resolution begins with, and what is written behind it. -/
theorem follows_written {start : Context} {write : α → Check β} (hc : (Course.resolution M).ready c)
    (hstart : c.Marks start) (hxy : x.Follows (.resolution M) y)
    (hwrite : ∀ a d e, y start = .ok a d → start.Continues Resolvable.Spares d → (write a).Ends d e →
      e = d ∨ c.Fills d e) :
    Run.FollowsFrom (.resolution M) c (fun _ => (x >>= write) start)
      fun _ => (y >>= write) start := by
  have hbegins := M.still hstart.begins hstart.macros fun h => hstart.frame.trans h
  have hfails (d) (hd : M.Moves start d) : M.Moves c d :=
    ⟨hstart.spares d hd.spares, fun hc => hd.orderly (hstart.orderly hc),
      M.moves_trans hd.spares.progresses hbegins.1 hd.macros⟩
  have hready : (Course.resolution M).ready start :=
    ⟨hstart.orderly hc.1, M.ready_done hc.2 hbegins.1 hbegins.2⟩
  refine (hxy start hready).written (fun d _ hd => hfails d hd) (fun a d e hy hd _ he => ?_)
    fun a d b e hy hd hdone he => ?_
  · obtain rfl | hfills := hwrite a d e hy hd.spares he
    · exact ⟨hfails e hd, (Course.resolution M).after_of_moves ((Course.resolution M).moves_refl e)⟩
    · have hmoves := (M.still hfills.fills hfills.macros fun h => hfills.frame.trans h).1
      exact ⟨⟨hfills.spares, fun hc => hfills.orderly (hd.orderly (hstart.orderly hc)),
        M.moves_trans hfills.fills (hfails d hd).macros hmoves⟩, hfills.fills, M.after_of_moves hmoves⟩
  · have hdone' := M.done_trans hbegins.2 hdone
    obtain rfl | hfills := hwrite a d e hy hd.spares (Run.ends_of_ok he)
    · exact hdone'
    · exact M.done_trans hdone' (M.still hfills.fills hfills.macros fun h => hfills.frame.trans h).2

/-! ## Instances -/

section

variable (ha : ∀ q : Query, q.isExpr → (ask q).Follows (.resolution M) (ask' q))

include ha

theorem follows_resolveEntity (entity : Entity) (span : Span) :
    Run.Follows (.resolution M)
      (match entity with
        | .struct id => ask (.layout id span)
        | .global id => do
          let _ ← ask (.global id span)
          return ())
      (match entity with
        | .struct id => ask' (.layout id span)
        | .global id => do
          let _ ← ask' (.global id span)
          return ()) := by
  cases entity with
  | struct id => exact ha _ rfl
  | global id => exact (ha _ rfl).bind fun _ => Run.follows_pure _

theorem follows_recordInstance {id : TemplateId} {args : List Ty} {span : Span} {entity : Entity}
    (hc : (Course.resolution M).ready c) (hentity : c.declares entity) :
    Run.FollowsFrom (.resolution M) c (recordInstance ask id args span entity)
      (recordInstance ask' id args span entity) := by
  have hadd := c.proceeds_addInstance id args hentity
  unfold recordInstance
  exact (Run.followsFrom_modify (MacroLaw.moves_proceeds hadd) (MacroLaw.done_proceeds hadd)).bind hc
    fun _ => (follows_detached (follows_resolveEntity ha entity span)).bind fun _ => Run.follows_pure _

theorem follows_makeInstance (id : TemplateId) (t : TemplateDef) (path : String) (args : List Ty)
    (number : Nat) (span : Span) :
    (makeInstance ask id t path args number span).Follows (.resolution M)
      (makeInstance ask' id t path args number span) := by
  intro c hc
  rw [makeInstance_eq, makeInstance_eq]
  generalize hx : declareEntity t.item.kind (instanceScope t args)
    (some { number, display := instancePath path args }) = x
  cases hrun : x c with
  | ok member d =>
    have hdeclare := hx ▸ hrun
    cases hmade : madeEntity? member with
    | some entity =>
      have hproceeds := proceeds_declareEntity hdeclare hmade
      refine Run.FollowsFrom.bind_ok (followsFrom_proceeds fun e he => ?_) fun other e he hmoves hdone =>
        ?_
      · rcases he with ⟨_, he⟩ | ⟨_, he⟩ <;> rw [hrun] at he <;> cases he
        exact hproceeds
      · obtain ⟨rfl, rfl⟩ : member = other ∧ d = e := Outcome.ok.inj (hrun.symm.trans he)
        rw [hmade]
        exact follows_recordInstance ha ((Course.resolution M).ready_done hc hmoves hdone)
          (declareEntity_fresh hdeclare hmade).2
    | none =>
      refine Run.followsFrom_of_error (d := ⟨.notATemplate path, span, none⟩) ?_ ?_
        (moves_declareEntity hdeclare)
      all_goals
        rw [Run.bind_apply, hrun]
        dsimp only
        rw [hmade]
        rfl
  | error e d =>
    obtain rfl := declareEntity_eq_error (hx ▸ hrun)
    exact Run.followsFrom_of_error (by rw [Run.bind_apply, hrun]) (by rw [Run.bind_apply, hrun])
      ((Course.resolution M).moves_refl d)
  | stopped why =>
    exact Run.followsFrom_of_stopped (by rw [Run.bind_apply, hrun]) (by rw [Run.bind_apply, hrun])

theorem follows_instantiate (id : TemplateId) (args : List Ty) (span : Span) :
    (instantiate ask id args span).Follows (.resolution M) (instantiate ask' id args span) := by
  intro c hc
  rw [instantiate_eq, instantiate_eq]
  refine Run.followsFrom_get_bind ?_
  dsimp only
  split
  · exact Run.follows_reject _ _ c hc
  · split
    · exact Run.follows_pure _ c hc
    · split
      · exact Run.follows_reject _ _ c hc
      · have hbegan : c.Proceeds (began id args c) :=
          Context.Shares.proceeds ⟨rfl, rfl, rfl, rfl, rfl, rfl⟩ fun h => h
        have hceased (d : Context) : d.Proceeds (ceased d) :=
          Context.Shares.proceeds ⟨rfl, rfl, rfl, rfl, rfl, rfl⟩ fun h => h
        have hready := (Course.resolution M).ready_done hc (MacroLaw.moves_proceeds hbegan)
          (MacroLaw.done_proceeds hbegan)
        have haround : Run.FollowsFrom (.resolution M) c
            (fun _ => (makeInstance ask id (c.template id) (templatePath c (c.template id)) args
              (c.instanceCount + 1) span).andFinally ceased (began id args c))
            fun _ => (makeInstance ask' id (c.template id) (templatePath c (c.template id)) args
              (c.instanceCount + 1) span).andFinally ceased (began id args c) := by
          refine (follows_makeInstance ha _ _ _ _ _ _ _ hready).around (fun d hd => ?_)
            (fun d _ hd => ?_) fun d e hde => ?_
          · exact ((MacroLaw.moves_proceeds hbegan).trans hd).trans (MacroLaw.moves_proceeds (hceased d))
          · exact M.done_trans (M.done_trans (MacroLaw.done_proceeds hbegan) hd)
              (MacroLaw.done_proceeds (hceased d))
          · have hback : (ceased d).Proceeds d :=
              Context.Shares.proceeds ⟨rfl, rfl, rfl, rfl, rfl, rfl⟩ fun h => h
            exact (Course.resolution M).after_trans
              ((Course.resolution M).after_of_moves (MacroLaw.moves_proceeds hback))
              ((Course.resolution M).after_trans hde
                ((Course.resolution M).after_of_moves (MacroLaw.moves_proceeds (hceased e))))
        exact haround.of_eq rfl rfl

/-! ## Entities -/

/-- An identity that no alias was declared for names nothing. -/
def Unnamed (ask : Asker) : Prop :=
  ∀ c d t, ask (.type (default : AliasDef).target (default : AliasDef).scope) c ≠ .ok t d

omit ha in
theorem Unnamed.lt (hnone : Unnamed ask) {id : AliasId} {t : Ty} {start : Context}
    (h : detached (ask (.type (c.typeAlias id).target (c.typeAlias id).scope)) start = .ok t d) :
    id.index < c.aliases.size := by
  by_contra hid
  obtain ⟨e, hwork, -⟩ := Run.andFinally_eq_ok.mp h
  rw [show c.typeAlias id = default by simp [Context.typeAlias, Nat.not_lt.mp hid]] at hwork
  exact hnone _ _ _ hwork

theorem follows_resolveAlias (hnone : Unnamed ask') (id : AliasId) (usedAt : Span) :
    (resolveAlias ask id usedAt).Follows (.resolution M) (resolveAlias ask' id usedAt) := by
  intro c hc
  rcases resolveAlias_cases c id usedAt with hnew | ⟨t, hstate, ht⟩ | ⟨e, hrun⟩
  · refine (follows_written hc (hnew.marks hc.1.toDefinite) (follows_detached (ha _ rfl)) ?_).of_eq
      (resolveAlias_nameless hnew usedAt) (resolveAlias_nameless hnew usedAt)
    intro target d e hwork hd he
    have hid := hnone.lt hwork
    obtain rfl : e = named d id (.mk target.shape (some (c.typeAlias id).display)) :=
      Run.ends_pure (Run.ends_modify_bind he)
    exact .inr (hnew.fills hc.1.toDefinite hid hd _)
  · exact (Run.follows_pure t c hc).of_eq (resolveAlias_complete hstate ht usedAt)
      (resolveAlias_complete hstate ht usedAt)
  · exact (Run.follows_fail e c hc).of_eq (hrun ask) (hrun ask')

theorem follows_structWork (s : StructDef) :
    (structWork ask s).Follows (.resolution M) (structWork ask' s) :=
  follows_detached (follows_resolveFields ha _ _ _)

theorem follows_resolveStruct (id : StructId) (usedAt : Span) :
    (resolveStruct ask id usedAt).Follows (.resolution M) (resolveStruct ask' id usedAt) := by
  intro c hc
  by_cases hstate : (c.struct id).state = .declared
  · refine (follows_written hc (marks_laying hstate) (follows_structWork ha _) ?_).of_eq
      (resolveStruct_declared hstate usedAt) (resolveStruct_declared hstate usedAt)
    intro fields d e hwork hd he
    refine (ends_storeFields he).imp_right fun hlaid => ?_
    rw [hlaid]
    exact fills_laidOut hstate (structWork_names hwork) hd
  · unfold resolveStruct
    refine Run.followsFrom_get_bind ?_
    dsimp only
    split
    · exact Run.follows_pure _ c hc
    · exact Run.follows_reject _ _ c hc
    · exact absurd ‹_› hstate

end

section

variable (h : Following (.resolution M) ask ask')

include h

theorem follows_globalWork (g : Global) :
    (globalWork ask g).Follows (.resolution M) (globalWork ask' g) := by
  unfold globalWork
  split
  · exact (follows_fnType h _ _ _).bind fun _ => Run.follows_pure _
  · exact follows_variableType h _ _

theorem follows_resolveGlobal (id : GlobalId) (usedAt : Span) :
    (resolveGlobal ask id usedAt).Follows (.resolution M) (resolveGlobal ask' id usedAt) := by
  intro c hc
  rcases resolveGlobal_cases c id usedAt with hnew | ⟨t, ht⟩ | ⟨e, hrun⟩
  · refine (follows_written hc (marks_started hc.1.toDefinite hnew)
      (follows_detached (follows_globalWork h _)) ?_).of_eq
        (resolveGlobal_unsettled hnew usedAt) (resolveGlobal_unsettled hnew usedAt)
    intro ⟨t, value⟩ d e hwork hd he
    have hid : id.index < c.globals.size := by
      obtain ⟨f, hwork, -⟩ := Run.andFinally_eq_ok.mp hwork
      exact globalWork_lt hwork
    obtain rfl : e = completed d id t value := Run.ends_pure (Run.ends_modify_bind he)
    exact .inr (fills_completed hc.1.toDefinite hnew hid (globalWork_value hwork) hd)
  · exact (Run.follows_pure t c hc).of_eq (resolveGlobal_complete ht usedAt)
      (resolveGlobal_complete ht usedAt)
  · exact (Run.follows_fail e c hc).of_eq (hrun ask) (hrun ask')

end

/-- The parts of checking that write what the answers are about, in a course of resolution. -/
theorem following_resolution (ha : ∀ q : Query, q.isExpr → (ask q).Follows (.resolution M) (ask' q))
    (hm : ∀ id, (resolveMacro ask id).Follows (.resolution M) (resolveMacro ask' id)) :
    Following (.resolution M) ask ask' where
  answers := ha
  consume value := follows_proceeds fun c => preserves_consume (preserves_modifyFrame_proceeds c) value
  macroSigned := hm
  instantiate := follows_instantiate ha

theorem follows_step (h : Following (.resolution M) ask ask') (hnone : Unnamed ask') (q : Query)
    (hq : q.isExpr) : (step ask q).Follows (.resolution M) (step ask' q) :=
  h.step (follows_resolveAlias h.answers hnone) (follows_resolveStruct h.answers)
    (follows_resolveGlobal h) q hq

/-! ## Cuts -/

section

variable {cut cut' : Cut}

theorem follows_cutAt (hcut : cut'.Within cut) {q : Query}
    (h : (ask q).Follows (.resolution M) (ask' q)) :
    (ask.cutAt cut q).Follows (.resolution M) (ask'.cutAt cut' q) := by
  intro c hc
  have hq := h c hc
  cases hstop : cut q c with
  | none =>
    have hpass := hcut q c hstop
    exact hq.of_eq (by simp only [Asker.cutAt, hstop]) (by simp only [Asker.cutAt, hpass])
  | some d =>
    have hx : ask.cutAt cut q c = .error d c := by simp only [Asker.cutAt, hstop]
    have hmoves (e) (he : (ask'.cutAt cut' q).Ends c e) : (Course.resolution M).moves c e := by
      cases hstop' : cut' q c with
      | none => exact hq.moves e (by simpa only [Run.Ends, Asker.cutAt, hstop'] using he)
      | some d' =>
        rcases he with ⟨_, he⟩ | ⟨_, he⟩ <;> simp only [Asker.cutAt, hstop'] at he <;> cases he
        exact (Course.resolution M).moves_refl c
    refine ⟨.inr (.inr ⟨d, c, hx, fun e he => (Course.resolution M).after_of_moves (hmoves e he)⟩), hmoves,
      fun a e he => ?_, False.elim⟩
    exact hq.done a e (cutAt_eq_ok he)

end

theorem unnamed_answerCut (cut : Cut) (n : Nat) : Unnamed (answerCut cut n) := by
  intro c d t h
  cases n with
  | zero => cases h
  | succ n => cases cutAt_eq_ok h

section

variable {cut cut' : Cut} (hcut : cut'.Within cut)

include hcut

/-- Answers that are cut short are followed by the answers that are cut short later, if the
signatures of macros are. -/
theorem follows_answerCut {bound : Nat}
    (hm : ∀ n < bound,
      (∀ q : Query, q.isExpr → (answerCut cut n q).Follows (.resolution M) (answerCut cut' n q)) →
        ∀ id, (resolveMacro (answerCut cut n) id).Follows (.resolution M)
          (resolveMacro (answerCut cut' n) id))
    {n : Nat} (hn : n ≤ bound) (q : Query) (hq : q.isExpr) :
    (answerCut cut n q).Follows (.resolution M) (answerCut cut' n q) := by
  induction n generalizing q with
  | zero => exact Run.follows_stop _
  | succ n ih =>
    have hfollowing := following_resolution (ih (Nat.le_of_lt hn)) (hm n hn (ih (Nat.le_of_lt hn)))
    exact follows_cutAt hcut (follows_step hfollowing (unnamed_answerCut cut' n) q hq)

end

end Check

end OwnLang
