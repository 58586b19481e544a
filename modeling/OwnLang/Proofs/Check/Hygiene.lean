import Mathlib
import OwnLang.Proofs.Check.Inversion
import OwnLang.Proofs.Check.Invariant
import OwnLang.Proofs.Check.Moves

/-!
# What a request leaves as it was

An alias, a signature, a layout or an instance of a template is resolved when something asks for it,
from wherever that is. Such a request is `Blind`: it does the same whatever frame is open, so that
no local of the body that asks is seen. It is `Hygienic`: also where it fails, the frame is the one
that it found, and so is the list of the instances that are being resolved. A block and a loop are
`Levelled`: what they open is closed again at every end.

That a request is blind is seen from its own steps, since all nested work in it is detached. What is
kept at every end needs the nested answers, so it goes by induction on how deep they nest.
-/

namespace OwnLang

/-- The same end of a run, with its state changed. -/
def Outcome.mapState {σ α : Type} (change : σ → σ) : Outcome σ α → Outcome σ α
  | .ok a s => .ok a (change s)
  | .error d s => .error d (change s)
  | .stopped why => .stopped why

namespace Context

/-- The context with another function, or none, being checked. -/
def inFrame (c : Context) (frame : Option Frame) : Context := { c with frame }

/-- How many blocks and how many loops are open in the function that is being checked. -/
def levels (c : Context) : Option (Nat × Nat) := c.frame.map Frame.levels

end Context

namespace Check

open Surface (Ident)

variable {α β : Type}

/-- The run does the same in every frame, and changes nothing of the frame. -/
def Blind (x : Check α) : Prop :=
  ∀ c frame, x (c.inFrame frame) = (x c).mapState (·.inFrame frame)

/-- The run does the same in every frame, and leaves the frame and the instances that are being
resolved as they were, whether it succeeds or fails. -/
structure Hygienic (x : Check α) : Prop where
  blind : Blind x
  frame : ∀ c d, x.Ends c d → d.frame = c.frame
  inProgress : ∀ c d, x.Ends c d → d.inProgress = c.inProgress

/-- The run leaves as many blocks and loops open as there were, whether it succeeds or fails. -/
def Levelled (x : Check α) : Prop := ∀ c d, x.Ends c d → d.levels = c.levels

/-! ## Runs that see no frame -/

/-- What a blind run ends in has the frame that it began in: it is the same run as in that frame. -/
theorem Blind.frame {x : Check α} (h : Blind x) (c d : Context) (hd : x.Ends c d) :
    d.frame = c.frame := by
  have hself : x c = (x c).mapState (·.inFrame c.frame) := h c c.frame
  rcases hd with ⟨a, hd⟩ | ⟨e, hd⟩
  · rw [hd] at hself
    rw [(Outcome.ok.inj hself).2]
    rfl
  · rw [hd] at hself
    rw [(Outcome.error.inj hself).2]
    rfl

theorem blind_pure (a : α) : Blind (pure a) := fun _ _ => rfl

theorem blind_fail (d : Diagnostic) : Blind (Run.fail d : Check α) := fun _ _ => rfl

theorem blind_reject (cause : Cause) (span : Span) : Blind (Run.reject cause span : Check α) :=
  blind_fail _

theorem blind_modify {change : Context → Context}
    (h : ∀ c frame, change (c.inFrame frame) = (change c).inFrame frame) :
    Blind (modify change) := fun c frame =>
  congrArg (Outcome.ok PUnit.unit) (h c frame)

theorem Blind.bind {x : Check α} {f : α → Check β} (hx : Blind x) (hf : ∀ a, Blind (f a)) :
    Blind (x >>= f) := by
  intro c frame
  rw [Run.bind_apply, Run.bind_apply, hx]
  cases x c with
  | ok a d => exact hf a d frame
  | error e d => rfl
  | stopped why => rfl

theorem Blind.map {x : Check α} (hx : Blind x) (f : α → β) : Blind (f <$> x) := by
  rw [map_eq_pure_bind]
  exact hx.bind fun _ => blind_pure _

/-- A look at the state is blind if what is done next does not look at the frame. -/
theorem blind_get_bind {f : Context → Check β} (h : ∀ c, Blind (f c))
    (hf : ∀ c frame, f (c.inFrame frame) = f c) : Blind (get >>= f) := by
  intro c frame
  show f (c.inFrame frame) (c.inFrame frame) = (f c c).mapState (·.inFrame frame)
  rw [hf, h c c frame]

theorem Blind.andFinally {x : Check α} (hx : Blind x) {change : Context → Context}
    (h : ∀ c frame, change (c.inFrame frame) = (change c).inFrame frame) :
    Blind (x.andFinally change) := by
  intro c frame
  unfold Run.andFinally
  rw [hx]
  cases x c with
  | ok a d => exact congrArg (Outcome.ok a) (h d frame)
  | error e d => exact congrArg (Outcome.error e) (h d frame)
  | stopped why => rfl

theorem blind_forIn {f : α → β → Check (ForInStep β)} (hf : ∀ a b, Blind (f a b)) (l : List α)
    (b : β) : Blind (forIn l b f) := by
  induction l generalizing b with
  | nil => exact blind_pure _
  | cons a l ih =>
    rw [List.forIn_cons]
    refine (hf a b).bind fun r => ?_
    cases r with
    | done b => exact blind_pure _
    | yield b => exact ih b

theorem detached_apply (work : Check α) (c : Context) :
    detached work c = (work (c.inFrame none)).mapState (·.inFrame c.frame) := by
  unfold detached Run.andFinally Context.inFrame
  dsimp only
  split <;> rename_i hwork <;> rw [hwork] <;> rfl

/-- Work that is detached runs in no frame at all, wherever it is asked for. -/
theorem blind_detached (work : Check α) : Blind (detached work) := by
  intro c frame
  rw [detached_apply, detached_apply]
  show Outcome.mapState _ (work (c.inFrame none)) = _
  cases work (c.inFrame none) <;> rfl

/-! ## Declarations -/

theorem blind_depthOf (isInstance : Bool) : Blind (depthOf isInstance) :=
  blind_get_bind (fun _ => blind_pure _) fun _ _ => rfl

theorem blind_declareFunction (decl : Surface.FnDecl) (scope : Scope) (owner : Option StructId)
    (symbol display : String) (isInstance : Bool) :
    Blind (declareFunction decl scope owner symbol display isInstance) :=
  (blind_depthOf _).bind fun _ => blind_get_bind
    (fun _ => (blind_modify fun _ _ => rfl).bind fun _ => blind_pure _) fun _ _ => rfl

theorem blind_declareVariable (decl : Surface.VarDecl) (scope : Scope) (symbol display : String)
    (isInstance : Bool) : Blind (declareVariable decl scope symbol display isInstance) :=
  (blind_depthOf _).bind fun _ => blind_get_bind
    (fun _ => (blind_modify fun _ _ => rfl).bind fun _ => blind_pure _) fun _ _ => rfl

theorem blind_declareStruct (decl : Surface.StructDecl) (scope : Scope) (symbol display : String)
    (isInstance : Bool) : Blind (declareStruct decl scope symbol display isInstance) := by
  refine blind_get_bind (fun c => (blind_modify fun _ _ => rfl).bind fun _ =>
    (blind_forIn (fun method _ => ?_) _ _).bind fun _ => blind_pure _) fun _ _ => rfl
  exact (blind_declareFunction _ _ _ _ _ _).bind fun _ =>
    (blind_modify fun _ _ => rfl).bind fun _ => blind_pure _

theorem blind_declareAlias (name : Ident) (target : Surface.TypeExpr) (scope : Scope)
    (display : String) : Blind (declareAlias name target scope display) :=
  blind_get_bind (fun _ => (blind_modify fun _ _ => rfl).bind fun _ => blind_pure _) fun _ _ => rfl

theorem blind_declareMacro (decl : Surface.MacroDecl) (scope : Scope) (fullName : String) :
    Blind (declareMacro decl scope fullName) := by
  refine blind_get_bind (fun c => ?_) fun _ _ => rfl
  split
  · exact blind_fail _
  · exact blind_modify fun _ _ => rfl

theorem blind_declareEntity (kind : Surface.ItemKind) (scope : Scope)
    (names : Option InstanceNames) : Blind (declareEntity kind scope names) := by
  refine blind_get_bind (fun c => ?_) fun _ _ => rfl
  dsimp only
  split
  · exact (blind_declareFunction _ _ _ _ _ _).map _
  · exact (blind_declareStruct _ _ _ _ _).map _
  · exact (blind_declareVariable _ _ _ _ _).map _
  · exact (blind_declareAlias _ _ _ _).map _
  · exact (blind_declareMacro _ _ _).bind fun _ => blind_pure _

/-! ## Requests -/

variable (ask : Asker)

theorem blind_resolveAlias (id : AliasId) (usedAt : Span) : Blind (resolveAlias ask id usedAt) := by
  refine blind_get_bind (fun c => ?_) fun _ _ => rfl
  dsimp only
  split
  · exact blind_pure _
  · exact blind_reject _ _
  · exact (blind_modify fun _ _ => rfl).bind fun _ => (blind_detached _).bind fun _ =>
      (blind_modify fun _ _ => rfl).bind fun _ => blind_pure _

theorem blind_resolveGlobal (id : GlobalId) (usedAt : Span) :
    Blind (resolveGlobal ask id usedAt) := by
  refine blind_get_bind (fun c => ?_) fun _ _ => rfl
  dsimp only
  split
  · exact blind_pure _
  · exact blind_reject _ _
  · exact (blind_modify fun _ _ => rfl).bind fun _ => (blind_detached _).bind fun _ =>
      (blind_modify fun _ _ => rfl).bind fun _ => blind_pure _

/-- The methods that a field clashes with are read behind the nested work, from the entities. -/
theorem blind_resolveStruct (id : StructId) (usedAt : Span) :
    Blind (resolveStruct ask id usedAt) := by
  refine blind_get_bind (fun c => ?_) fun _ _ => rfl
  dsimp only
  split
  · exact blind_pure _
  · exact blind_reject _ _
  · refine (blind_modify fun _ _ => rfl).bind fun _ => (blind_detached _).bind fun fields =>
      blind_get_bind (fun d => ?_) fun _ _ => rfl
    split
    · exact (blind_fail _).bind fun _ => blind_modify fun _ _ => rfl
    · exact blind_modify fun _ _ => rfl

theorem blind_makeInstance (id : TemplateId) (t : TemplateDef) (path : String) (args : List Ty)
    (number : Nat) (span : Span) : Blind (makeInstance ask id t path args number span) := by
  refine (blind_declareEntity _ _ _).bind fun member => ?_
  extract_lets +onlyGivenNames record
  have hrecord (entity) : Blind (record entity) :=
    (blind_modify fun _ _ => rfl).bind fun _ => (blind_detached _).bind fun _ => blind_pure _
  split
  · exact (blind_pure _).bind hrecord
  · exact (blind_pure _).bind hrecord
  · exact (blind_reject _ _).bind hrecord

/-- The instance that is asked for is the innermost one. -/
def began (id : TemplateId) (args : List Ty) (c : Context) : Context :=
  { c with instanceCount := c.instanceCount + 1, inProgress := (id, args) :: c.inProgress }

/-- The innermost instance is not resolved any more. -/
def ceased (c : Context) : Context := { c with inProgress := c.inProgress.tail }

/-- What is new when an instance is made is a change of the context at that point. -/
theorem instantiate_eq (id : TemplateId) (args : List Ty) (span : Span) :
    instantiate ask id args span = (do
      let c ← get
      let t := c.template id
      let path := templatePath c t
      if args.length != t.params.length then
        Run.reject (.templateArity path t.params.length args.length) span
      else if let some entity := t.instance? args then
        return entity
      else if c.options.maxInstantiationDepth ≤ c.instantiationDepth then
        Run.reject (.instantiationDepth path c.options.maxInstantiationDepth) span
      else
        modify (began id args)
        (makeInstance ask id t path args (c.instanceCount + 1) span).andFinally ceased) := by
  funext c
  simp only [instantiate, Run.bind_apply, Run.get_apply]
  split
  · rfl
  · cases (c.template id).instance? args with
    | some entity => rfl
    | none => split <;> rfl

theorem blind_instantiate (id : TemplateId) (args : List Ty) (span : Span) :
    Blind (instantiate ask id args span) := by
  rw [instantiate_eq]
  refine blind_get_bind (fun c => ?_) fun _ _ => rfl
  dsimp only
  split
  · exact blind_reject _ _
  · split
    · exact blind_pure _
    · split
      · exact blind_reject _ _
      · exact (blind_modify fun _ _ => rfl).bind fun _ =>
          (blind_makeInstance _ _ _ _ _ _ _).andFinally fun _ _ => rfl

variable {ask}

/-! ## The instances that are being resolved -/

/-- The instances that are being resolved are those of a list. -/
def Making (made : List (TemplateId × List Ty)) (c : Context) : Prop := c.inProgress = made

theorem making_detached {made : List (TemplateId × List Ty)} {work : Check α}
    (h : work.Preserves (Making made)) : (detached work).Preserves (Making made) := by
  intro c d hd hc
  obtain ⟨e, he, rfl⟩ := Run.ends_andFinally hd
  have hmade : Making made e := h he (by exact hc)
  exact hmade

theorem making_additive (made : List (TemplateId × List Ty)) : Additive (Making made) where
  global _ _ _ _ _ hc := hc
  struct _ _ _ _ hc := hc
  member _ _ _ hc := hc
  typeAlias _ _ _ hc := hc
  macroDef _ _ _ _ hc := hc

section Making

variable (ha : ∀ made, ∀ q : Query, q.isExpr → (ask q).Preserves (Making made))

include ha

/-- The instance that is made is the innermost one until it is resolved. -/
theorem making_instantiate (made : List (TemplateId × List Ty)) (id : TemplateId) (args : List Ty)
    (span : Span) : (instantiate ask id args span).Preserves (Making made) := by
  rw [instantiate_eq]
  refine Run.preserves_get_bind fun c d hd hc => ?_
  dsimp only at hd
  split at hd
  · exact Run.preserves_reject _ _ hd hc
  split at hd
  · exact Run.preserves_pure _ hd hc
  split at hd
  · exact Run.preserves_reject _ _ hd hc
  obtain ⟨e, hmake, rfl⟩ := Run.ends_andFinally (Run.ends_modify_bind hd)
  have hmade : Making ((id, args) :: made) e :=
    preserves_makeInstance (ha _) making_detached (fun _ _ _ hc => hc) id _ _ _
      (fun _ => preserves_declareEntity (making_additive _) _ _ _) _ hmake
      (congrArg _ hc)
  exact congrArg List.tail hmade

theorem making_stable (made : List (TemplateId × List Ty)) : Stable ask (Making made) where
  answers := ha made
  detached := making_detached
  consume := preserves_consume fun _ => Run.preserves_modify fun _ hc => hc
  aliasStarted _ _ hc := hc
  aliasDone _ _ _ hc := hc
  structResolved :=
    preserves_resolveStruct (ha made) making_detached (fun _ _ hc => hc) fun _ _ _ hc => hc
  macroDone _ _ _ _ hc := hc
  instantiate := making_instantiate ha made

theorem making_resolveGlobal (made : List (TemplateId × List Ty)) (id : GlobalId) (usedAt : Span) :
    (resolveGlobal ask id usedAt).Preserves (Making made) :=
  preserves_resolveGlobal (making_stable ha made) (fun _ _ hc => hc) (fun _ _ _ _ hc => hc) id
    usedAt

end Making

/-- Every answer that no statement is checked for leaves the list as it found it. -/
theorem answerTo_making (n : Nat) (made : List (TemplateId × List Ty)) (q : Query)
    (hq : q.isExpr) : (answerTo n q).Preserves (Making made) := by
  induction n generalizing made q with
  | zero => exact Run.preserves_stop _
  | succ n ih => exact (making_stable ih made).step (making_resolveGlobal ih made) q hq

/-! ## Blocks and loops -/

theorem levels_openBlock (c : Context) :
    (c.reframe Frame.openBlock).levels = c.levels.map (Prod.map (· + 1) id) := by
  unfold Context.levels Context.reframe
  cases c.frame <;> rfl

theorem levels_closed (c : Context) :
    (c.reframe closed).levels = c.levels.map (Prod.map (· - 1) id) := by
  unfold Context.levels Context.reframe
  cases c.frame with
  | none => rfl
  | some f => simp [closed, Frame.levels]

theorem levels_enter (form : LoopForm) (loop : LoopId) (c : Context) :
    (c.reframe (form.enter loop)).levels = c.levels.map (Prod.map id (· + 1)) := by
  unfold Context.levels Context.reframe
  cases c.frame <;> rfl

theorem levels_leaveLoop (c : Context) :
    (c.reframe leaveLoop).levels = c.levels.map (Prod.map id (· - 1)) := by
  unfold Context.levels Context.reframe
  cases c.frame with
  | none => rfl
  | some f => simp [leaveLoop, Frame.levels]

/-- As many blocks and loops are open as a number of each, if a function is being checked. -/
def Level (k : Option (Nat × Nat)) (c : Context) : Prop := c.levels = k

theorem FrameMoved.levels {c d : Context} (h : FrameMoved c d) : d.levels = c.levels := by
  unfold Context.levels
  unfold FrameMoved at h
  generalize c.frame = f at h ⊢
  generalize d.frame = g at h ⊢
  cases h with
  | none => rfl
  | some h => simp [Frame.levels, h.blocks.length_eq, h.loops]

/-- What only moves locals leaves the blocks and loops open. -/
theorem level_of_moved {x : Check α} (h : ∀ c, x.Preserves (FrameMoved c))
    (k : Option (Nat × Nat)) : x.Preserves (Level k) :=
  fun c _ hd hc => (h c hd (.refl c)).levels.trans hc

theorem level_detached {k : Option (Nat × Nat)} (work : Check α) :
    (detached work).Preserves (Level k) :=
  level_of_moved (fun _ => frameMoved_detached work) k

/-- A new local is declared in the innermost block, which stays open. -/
theorem level_declareLocal (k : Option (Nat × Nat)) (name : Ident) (t : Ty) (constant : Bool)
    (value : Option Const) : (declareLocal name t constant value).Preserves (Level k) := by
  unfold declareLocal
  refine preserves_frame.bind fun f => ?_
  extract_lets +onlyGivenNames clash id added add
  clear_value clash
  have hadd : (add ⟨⟩).Preserves (Level k) := by
    refine (Run.preserves_modify fun c hc => ?_).bind fun _ => Run.preserves_pure _
    rw [← hc]
    show Option.map _ (Option.map _ c.frame) = Option.map _ c.frame
    simp only [Option.map_map, Function.comp_def, Frame.levels_modifyTop]
    rfl
  split
  · exact (Run.preserves_fail _).bind fun _ => hadd
  · exact hadd

section Level

variable (ha : ∀ k q, (ask q).Preserves (Level k))
  (hm : ∀ c, ∀ q : Query, q.isExpr → (ask q).Preserves (FrameMoved c))

include ha hm

theorem level_stable (k : Option (Nat × Nat)) : Stable ask (Level k) where
  answers q _ := ha k q
  detached _ := level_detached _
  consume value := level_of_moved (fun _ => frameMoved_consume value) k
  aliasStarted _ _ hc := hc
  aliasDone _ _ _ hc := hc
  structResolved id usedAt :=
    level_of_moved (fun _ => (frameMoved_stable (hm _)).structResolved id usedAt) k
  macroDone _ _ _ _ hc := hc
  instantiate id args span :=
    level_of_moved (fun _ => (frameMoved_stable (hm _)).instantiate id args span) k

theorem level_flat (k : Option (Nat × Nat)) : Flat ask (Level k) :=
  { level_stable ha hm k with
    everyAnswer := ha k
    resembles := fun _ _ hcd hc => hcd.levels.trans hc
    declared := (level_stable ha hm k).declStmt (level_declareLocal k) }

omit ha hm in
/-- Work in a block of its own, which is closed behind both of its ends. -/
theorem level_opened {k : Option (Nat × Nat)} {work : Check α}
    {f : Except Diagnostic α → List LocalId × BlockFrame → Check β}
    (hwork : work.Preserves (Level (k.map (Prod.map (· + 1) id))))
    (hf : ∀ r done, (f r done).Preserves (Level k)) :
    (do
      modifyFrame Frame.openBlock
      let r ← work.attempt
      let done ← closeBlock
      f r done : Check β).Preserves (Level k) := by
  intro c d hd hc
  obtain ⟨r, e, he, hd⟩ := Run.ends_attempt_bind (Run.ends_modify_bind hd)
  have hopened : Level (k.map (Prod.map (· + 1) id)) e :=
    hwork he ((levels_openBlock c).trans (congrArg _ hc))
  refine hf r _ (s := e.reframe closed) hd ?_
  show (e.reframe closed).levels = k
  rw [levels_closed, hopened, Option.map_map]
  simp [Function.comp_def, Prod.map]

theorem level_checkBlock (k : Option (Nat × Nat)) (block : Surface.Block) (scope : Scope) :
    (checkBlock ask block scope).Preserves (Level k) :=
  level_opened (preserves_checkStmts (level_flat ha hm _) _ _) fun _ _ =>
    (Run.preserves_ofExcept _).bind fun _ =>
      (preserves_settleMoves (level_flat ha hm k).resembles _).bind fun _ => Run.preserves_pure _

theorem level_checkLoopParts (k : Option (Nat × Nat)) (loop : LoopId) (form : LoopForm)
    (scope : Scope) : (checkLoopParts ask loop form scope).Preserves (Level k) := by
  refine (preserves_optionalStmt (level_flat ha hm k) _ _).bind fun init c d hd hc => ?_
  obtain ⟨r, e, he, hd⟩ := Run.ends_attempt_bind (Run.ends_modify_bind hd)
  have hentered : Level (k.map (Prod.map id (· + 1))) e :=
    preserves_checkIteration (level_flat ha hm _) _ _ he
      ((levels_enter form loop c).trans (congrArg _ hc))
  refine ((Run.preserves_ofExcept r).bind fun _ => Run.preserves_pure _)
    (s := e.reframe leaveLoop) hd ?_
  show (e.reframe leaveLoop).levels = k
  rw [levels_leaveLoop, hentered, Option.map_map]
  simp [Function.comp_def, Prod.map]

theorem level_loopStmt (k : Option (Nat × Nat)) (form : LoopForm) (scope : Scope) :
    (loopStmt ask form scope).Preserves (Level k) := by
  refine (preserves_newLoop (level_flat ha hm k).resembles).bind fun loop =>
    level_opened (level_checkLoopParts ha hm _ loop form scope) fun _ done =>
      (Run.preserves_ofExcept _).bind fun checked =>
        (preserves_settleMoves (level_flat ha hm k).resembles _).bind fun _ => ?_
  split
  · exact (preserves_modifyFrame (level_flat ha hm k).resembles fun f => by simp).bind fun _ =>
      Run.preserves_pure _
  · exact Run.preserves_pure _

end Level

/-- Every answer leaves as many blocks and loops open as it found. -/
theorem answerTo_level (n : Nat) (k : Option (Nat × Nat)) (q : Query) :
    (answerTo n q).Preserves (Level k) := by
  induction n generalizing k q with
  | zero => exact Run.preserves_stop _
  | succ n ih =>
    have hm (c : Context) (q : Query) (hq : q.isExpr) : (answerTo n q).Preserves (FrameMoved c) :=
      answerTo_moves n q hq
    exact (level_flat ih hm k).step (level_checkBlock ih hm k) (level_loopStmt ih hm k)
      (fun id usedAt => level_of_moved (fun _ => answerTo_moves (n + 1) (.global id usedAt) rfl) k)
      q

/-! ## Requests are hygienic, blocks and loops are levelled -/

theorem Hygienic.intro {x : Check α} (hb : Blind x) (hm : ∀ made, x.Preserves (Making made)) :
    Hygienic x :=
  ⟨hb, hb.frame, fun _ _ hd => hm _ hd rfl⟩

theorem levelled_of_level {x : Check α} (h : ∀ k, x.Preserves (Level k)) : Levelled x :=
  fun _ _ hd => h _ hd rfl

/-- The type of a global, the layout of a struct, the type that an alias names and what a template
makes are resolved alike in every frame, and leave the frame and the instances that are being
resolved in place at every end. A block and a loop close what they open at every end. -/
theorem requests_hygienic (n : Nat) :
    (∀ id usedAt, Hygienic (resolveGlobal (answerTo n) id usedAt)) ∧
    (∀ id usedAt, Hygienic (resolveStruct (answerTo n) id usedAt)) ∧
    (∀ id usedAt, Hygienic (resolveAlias (answerTo n) id usedAt)) ∧
    (∀ id args span, Hygienic (instantiate (answerTo n) id args span)) ∧
    (∀ block scope, Levelled (checkBlock (answerTo n) block scope)) ∧
    (∀ form scope, Levelled (loopStmt (answerTo n) form scope)) := by
  have hmaking := answerTo_making n
  have hmoves (c : Context) (q : Query) (hq : q.isExpr) : (answerTo n q).Preserves (FrameMoved c) :=
    answerTo_moves n q hq
  refine ⟨fun id usedAt => ?global, fun id usedAt => ?struct, fun id usedAt => ?typeAlias,
    fun id args span => ?made, fun block scope => ?block, fun form scope => ?loop⟩
  case global => exact .intro (blind_resolveGlobal _ _ _) fun made =>
    making_resolveGlobal hmaking made id usedAt
  case struct => exact .intro (blind_resolveStruct _ _ _) fun made =>
    (making_stable hmaking made).structResolved id usedAt
  case typeAlias => exact .intro (blind_resolveAlias _ _ _) fun made =>
    (making_stable hmaking made).aliasResolved id usedAt
  case made => exact .intro (blind_instantiate _ _ _ _) fun made =>
    making_instantiate hmaking made id args span
  case block => exact levelled_of_level fun k =>
    level_checkBlock (answerTo_level n) hmoves k block scope
  case loop => exact levelled_of_level fun k =>
    level_loopStmt (answerTo_level n) hmoves k form scope

end Check

end OwnLang
