import Mathlib
import OwnLang.Proofs.Check.Frame

/-!
# Bodies of functions

The statements of a body are checked in a frame of its function, in which nothing but the parameters
was declared (`Entering`).
-/

namespace OwnLang

namespace Check

variable {ask : Asker} {scope : Scope} {c d : Context}

/-- A frame in which nothing but parameters was declared. -/
structure Entering (returns : Ty) (f : Frame) : Prop where
  blocks : ∃ ids : List LocalId, f.blocks = [{ locals := ids }] ∧
    ∀ id ∈ ids, id.index < f.locals.size ∧ (f.localAt id).depth = 0
  loops : f.loops = []
  unreachable : f.unreachable = 0
  returns : f.returns = returns

/-- The frame of a context is one in which nothing but parameters was declared. -/
def IsEntering (returns : Ty) (c : Context) : Prop := ∃ f, c.frame = some f ∧ Entering returns f

theorem Entering.declare {returns : Ty} {f : Frame} (h : Entering returns f) {l : Local}
    (hl : l.depth = 0) : Entering returns (declare l f) := by
  obtain ⟨ids, hblocks, hids⟩ := h.blocks
  have hdeclare : Check.declare l f =
      { f with locals := f.locals.push l, blocks := [{ locals := ⟨f.locals.size⟩ :: ids }] } := by
    simp [Check.declare, Frame.modifyTop, hblocks]
  rw [hdeclare]
  refine ⟨⟨_, rfl, fun id hid => ?_⟩, h.loops, h.unreachable, h.returns⟩
  rw [Array.size_push]
  rcases List.mem_cons.mp hid with rfl | hid
  · refine ⟨Nat.lt_succ_self _, ?_⟩
    simpa [Frame.localAt] using hl
  · obtain ⟨hlt, hdepth⟩ := hids id hid
    refine ⟨Nat.lt_succ_of_lt hlt, ?_⟩
    have hsame : ({ f with locals := f.locals.push l, blocks := [{ locals := ⟨f.locals.size⟩ :: ids }] } :
        Frame).localAt id = f.localAt id := Frame.localAt_push_of_lt hlt
    rw [hsame, hdepth]

theorem entering_declareLocal {name : Surface.Ident} {t : Ty} {constant : Bool}
    {value : Option Const} {returns : Ty} {id : LocalId}
    (h : declareLocal name t constant value c = .ok id d) (hc : IsEntering returns c) :
    IsEntering returns d := by
  obtain ⟨f, hframe, hf⟩ := hc
  obtain ⟨-, rfl⟩ := declareLocal_eq_ok h
  have hhere : c.here = f := by
    rw [Context.here, hframe]
    rfl
  refine ⟨_, congrArg (Option.map _) hframe, hf.declare ?_⟩
  obtain ⟨ids, hblocks, -⟩ := hf.blocks
  rw [hhere, Frame.height, hblocks]
  rfl

theorem entering_declareParams {params : List (Surface.Param × Ty)} {ids : List LocalId}
    {returns : Ty} (h : declareParams params c = .ok ids d) (hc : IsEntering returns c) :
    IsEntering returns d := by
  induction params generalizing c ids with
  | nil =>
    cases h
    exact hc
  | cons param rest ih =>
    obtain ⟨id, c₁, hid, hrest⟩ := Run.bind_eq_ok.mp h
    obtain ⟨ids', c₂, hids, hreturn⟩ := Run.bind_eq_ok.mp hrest
    cases hreturn
    exact ih hids (entering_declareLocal hid hc)

theorem entering_declareReceiver {decl : Surface.FnDecl} {owner : Option StructId}
    {params : List Ty} {out : List LocalId × List Ty} {returns : Ty}
    (h : declareReceiver decl owner params c = .ok out d) (hc : IsEntering returns c) :
    IsEntering returns d := by
  unfold declareReceiver at h
  cases owner with
  | none =>
    cases h
    exact hc
  | some owner =>
    cases params with
    | nil =>
      cases h
      exact hc
    | cons this rest =>
      dsimp only at h
      split at h
      · obtain ⟨id, c₁, hid, hrest⟩ := Run.bind_eq_ok.mp h
        obtain ⟨u, c₂, hreceiver, hreturn⟩ := Run.bind_eq_ok.mp hrest
        cases hreceiver
        cases hreturn
        obtain ⟨f, hframe, hf⟩ := entering_declareLocal hid hc
        refine ⟨{ f with receiver := some (id, owner) }, ?_, hf.blocks, hf.loops, hf.unreachable,
          hf.returns⟩
        dsimp only
        rw [hframe]
        rfl
      · cases h
        exact hc

/-- A body that control reaches the end of returns there, with no value. -/
theorem finalReturn_eq_ok {f : Frame} {decl : Surface.FnDecl} {display : String}
    {last : List Core.Stmt} (h : finalReturn f decl display = .ok last) :
    (f.top.terminated = true ∧ last = []) ∨
      (f.top.terminated = false ∧ f.returns.shape.isVoid = true ∧
        ∃ span, last = [.mk (.ret none (f.releaseOrder f.top)) span false]) := by
  unfold finalReturn at h
  split at h
  · rename_i hterminated
    cases h
    exact .inl ⟨hterminated, rfl⟩
  · rename_i hterminated
    split at h
    · cases h
    · rename_i hvoid
      cases h
      exact .inr ⟨by simpa using hterminated, by simpa using hvoid, _, rfl⟩

/-- The context in which the parameters of a function are declared. -/
def opened (c : Context) (id : GlobalId) (returns : Ty) : Context :=
  { c with frame := some { function := id, returns, blocks := [{}] } }

/-- The steps of checking a body: its parameters, its statements, and the `return` at its end. -/
structure BodySteps (ask : Asker) (id : GlobalId) (decl : Surface.FnDecl) (owner : Option StructId)
    (display : String) (scope : Scope) (params : List Ty) (returns : Ty) (c d : Context) where
  receiver : List LocalId
  others : List Ty
  ids : List LocalId
  stmts : List Core.Stmt
  last : List Core.Stmt
  laid : Context
  received : Context
  entered : Context
  behind : Context
  hlaid : completeParams ask (params.reverse.zip decl.params.reverse) c = .ok ⟨⟩ laid
  hreceiver : declareReceiver decl owner params (opened laid id returns) =
    .ok (receiver, others) received
  hparams : declareParams (decl.params.zip others) received = .ok ids entered
  hstmts : checkStmts ask scope ((decl.body.map (·.stmts)).getD []) entered = .ok stmts behind
  hlast : finalReturn behind.here decl display = .ok last
  hclosed : d = { behind with frame := none }

/-- The body that the steps make. -/
def BodySteps.body {id : GlobalId} {decl : Surface.FnDecl} {owner : Option StructId}
    {display : String} {params : List Ty} {returns : Ty}
    (steps : BodySteps ask id decl owner display scope params returns c d) : Body where
  function := id
  params := steps.receiver ++ steps.ids
  locals := steps.behind.here.locals
  block := .mk (steps.stmts ++ steps.last) []
  returns := returns

/-- The statements are checked where nothing but the parameters was declared. -/
theorem BodySteps.entering {id : GlobalId} {decl : Surface.FnDecl} {owner : Option StructId}
    {display : String} {params : List Ty} {returns : Ty}
    (steps : BodySteps ask id decl owner display scope params returns c d) :
    IsEntering returns steps.entered := by
  refine entering_declareParams steps.hparams (entering_declareReceiver steps.hreceiver ⟨_, rfl, ?_⟩)
  exact ⟨⟨[], rfl, fun _ hid => absurd hid List.not_mem_nil⟩, rfl, rfl, rfl⟩

/-- A body is the statements that are checked in the frame of the function, with the `return` at
their end. -/
theorem checkTypedBody_eq_ok {id : GlobalId} {decl : Surface.FnDecl}
    {owner : Option StructId} {display : String} {params : List Ty} {returns : Ty} {out : Body}
    (h : checkTypedBody ask id decl owner display scope params returns c = .ok out d) :
    ∃ steps : BodySteps ask id decl owner display scope params returns c d, out = steps.body := by
  obtain ⟨u, c₁, hlaid, hrest⟩ := Run.bind_eq_ok.mp h
  obtain ⟨u, c₂, hopen, hrest₁⟩ := Run.bind_eq_ok.mp hrest
  cases hopen
  obtain ⟨r, c₃, hattempt, hrest₂⟩ := Run.bind_eq_ok.mp hrest₁
  obtain ⟨f, c₄, hf, hrest₃⟩ := Run.bind_eq_ok.mp hrest₂
  rw [frame_apply] at hf
  cases hf
  obtain ⟨u, c₅, hclose, hrest₄⟩ := Run.bind_eq_ok.mp hrest₃
  cases hclose
  obtain ⟨⟨ids, stmts⟩, c₆, hparts, hrest₅⟩ := Run.bind_eq_ok.mp hrest₄
  obtain ⟨rfl, rfl⟩ := Run.ofExcept_eq_ok.mp hparts
  obtain ⟨last, c₇, hfinal, hreturn⟩ := Run.bind_eq_ok.mp hrest₅
  obtain ⟨hlast, rfl⟩ := Run.ofExcept_eq_ok.mp hfinal
  cases hreturn
  rcases Run.attempt_eq_ok.mp hattempt with ⟨a, hbody, hok⟩ | ⟨e, -, he⟩
  · cases hok
    unfold bodyParts at hbody
    obtain ⟨⟨receiver, others⟩, c₈, hreceiver, hrest₆⟩ := Run.bind_eq_ok.mp hbody
    obtain ⟨params', c₉, hparams, hrest₇⟩ := Run.bind_eq_ok.mp hrest₆
    have hsteps {checked : List Core.Stmt} {c₁₀ : Context}
        (hstmts : checkStmts ask scope ((decl.body.map (·.stmts)).getD []) c₉ = .ok checked c₁₀)
        (hlast : finalReturn c₁₀.here decl display = .ok last) :
        ∃ steps : BodySteps ask id decl owner display scope params returns c
          { c₁₀ with frame := none },
          { function := id, params := receiver ++ params', locals := c₁₀.here.locals
            block := .mk (checked ++ last) [], returns : Body } = steps.body :=
      ⟨⟨receiver, others, params', checked, last, c₁, c₈, c₉, c₁₀, hlaid, hreceiver, hparams,
        hstmts, hlast, rfl⟩, rfl⟩
    cases hdecl : decl.body with
    | none =>
      rw [hdecl] at hrest₇
      cases hrest₇
      exact hsteps (by rw [hdecl]; rfl) hlast
    | some block =>
      rw [hdecl] at hrest₇
      obtain ⟨checked, c₁₀, hstmts, hreturn⟩ := Run.bind_eq_ok.mp hrest₇
      cases hreturn
      exact hsteps (by rw [hdecl]; exact hstmts) hlast
  · cases he

theorem checkBody_eq_ok {id : GlobalId} {out : Body} (h : checkBody ask id c = .ok out d) :
    ∃ decl owner t params variadic returns c₁, (c.global id).kind = .function decl owner ∧
      ask (.global id decl.name.span) c = .ok t c₁ ∧ t.shape = .func params variadic returns ∧
      checkTypedBody ask id decl owner (c.global id).display (c.global id).scope params returns c₁ =
        .ok out d := by
  unfold checkBody at h
  obtain ⟨c₁, c₂, hget, hrest⟩ := Run.bind_eq_ok.mp h
  cases hget
  cases hkind : (c.global id).kind with
  | storage _ =>
    simp only [hkind] at hrest
    cases hrest
  | function decl owner =>
    simp only [hkind] at hrest
    obtain ⟨t, c₃, ht, hbody⟩ := Run.bind_eq_ok.mp hrest
    cases hshape : t.shape with
    | func params variadic returns =>
      simp only [hshape] at hbody
      exact ⟨decl, owner, t, params, variadic, returns, c₃, rfl, ht, hshape, hbody⟩
    | _ =>
      simp only [hshape] at hbody
      cases hbody

end Check

end OwnLang
