import Mathlib
import OwnLang.Proofs.Check.Asked

/-!
# Release lists

Where control leaves blocks, their locals are freed that own a value. A release list is exact for a
number of blocks of a frame (`Frame.Releases`) if it names the owning locals of just these blocks, each
once, the last declared first. The lists of every `return`, `break` and `continue`, of the end of every
block and of the end of every loop are exact for the frame that checking has reached there
(`release_lists_exact`).
-/

namespace OwnLang

namespace Frame

/-- What is freed where control leaves the `count` innermost blocks of a frame. -/
structure Releases (f : Frame) (count : Nat) (drops : List LocalId) : Prop where
  /-- The locals that these blocks declare and that own a value, and no others. -/
  exact : ∀ id, id ∈ drops ↔ id ∈ (f.stack.take count).flatten ∧ (f.localAt id).ownership = .owns
  /-- Each once, the last declared first. -/
  ordered : drops.Pairwise fun a b => b.index < a.index
  /-- Those of inner blocks in front. -/
  inward : drops.Pairwise fun a b => (f.localAt b).depth ≤ (f.localAt a).depth
  declared : ∀ id ∈ drops, id.index < f.locals.size
  /-- They were declared at the depths that are left. -/
  left : ∀ id ∈ drops, f.height - count ≤ (f.localAt id).depth ∧ (f.localAt id).depth < f.height
  unique : ∀ id ∈ drops, (f.localAt id).type.shape.isCopyable = false
  /-- None is declared by a block that stays open. -/
  kept : ∀ id ∈ drops, id ∉ (f.stack.drop count).flatten

/-- What is freed at the end of the innermost block: nothing if control does not reach it. -/
structure Closes (f : Frame) (drops : List LocalId) : Prop where
  left : f.top.terminated = true → drops = []
  reached : f.top.terminated = false → f.Releases 1 drops

variable {f g : Frame} {count : Nat} {drops : List LocalId}

/-- Only the locals matter, and which block declares them. -/
theorem Releases.congr (h : f.Releases count drops) (hstack : g.stack = f.stack)
    (hlocals : g.locals = f.locals) : g.Releases count drops := by
  have hlocal (id : LocalId) : g.localAt id = f.localAt id := by
    unfold localAt
    rw [hlocals]
  have hheight : g.height = f.height := by rw [← length_stack, hstack, length_stack]
  refine ⟨?_, h.ordered, ?_, ?_, ?_, ?_, ?_⟩
  · simpa only [hstack, hlocal] using h.exact
  · simpa only [hlocal] using h.inward
  · simpa only [hlocals] using h.declared
  · simpa only [hlocal, hheight] using h.left
  · simpa only [hlocal] using h.unique
  · simpa only [hstack] using h.kept

/-- The locals of some outermost blocks stand at depths below their number, those of inner blocks in
front. -/
theorem Tidy.depths (h : f.Tidy) {ids : List (List LocalId)} (hids : ids <:+ f.stack) :
    (∀ id ∈ ids.flatten, (f.localAt id).depth < ids.length) ∧
      ids.flatten.Pairwise fun a b => (f.localAt b).depth ≤ (f.localAt a).depth := by
  induction ids with
  | nil => exact ⟨nofun, .nil⟩
  | cons block rest ih =>
    obtain ⟨hbelow, hinward⟩ := ih ((List.suffix_cons _ _).trans hids)
    have hplaced := h.placed block rest hids
    rw [List.flatten_cons]
    refine ⟨fun id hid => ?_, List.pairwise_append.mpr ⟨?_, hinward, fun a ha b hb => ?_⟩⟩
    · rw [List.length_cons]
      rcases List.mem_append.mp hid with hid | hid
      · rw [hplaced id hid]
        omega
      · have hlt := hbelow id hid
        omega
    · exact List.pairwise_of_forall_mem_list fun a ha b hb => by rw [hplaced a ha, hplaced b hb]
    · rw [hplaced a ha]
      exact (hbelow b hb).le

/-- The locals of some innermost blocks were declared at the depths of these blocks. -/
theorem Tidy.depth_ge (h : f.Tidy) {id : LocalId} (hid : id ∈ (f.stack.take count).flatten) :
    f.height - count ≤ (f.localAt id).depth := by
  obtain ⟨block, hblock, hid⟩ := List.mem_flatten.mp hid
  obtain ⟨i, hi, rfl⟩ := List.mem_take_iff_getElem.mp hblock
  have hlt : i < f.stack.length := by omega
  have hsuffix : f.stack[i] :: f.stack.drop (i + 1) <:+ f.stack := by
    rw [← List.drop_eq_getElem_cons hlt]
    exact List.drop_suffix _ _
  rw [h.placed _ _ hsuffix id hid, List.length_drop, Frame.length_stack]
  omega

/-- The owning locals of some innermost blocks, in the order in which the blocks show them. -/
theorem Tidy.releases (h : f.Tidy) (count : Nat) :
    f.Releases count ((f.stack.take count).flatten.filter fun id => (f.localAt id).owns) := by
  have hall : (f.stack.take count).flatten ++ (f.stack.drop count).flatten = f.stack.flatten := by
    rw [← List.flatten_append, List.take_append_drop]
  have hsub : ((f.stack.take count).flatten.filter fun id => (f.localAt id).owns).Sublist
      f.stack.flatten := List.filter_sublist.trans ((List.take_sublist _ _).flatten)
  have howns {id : LocalId} : (f.localAt id).owns = true ↔ (f.localAt id).ownership = .owns := by
    simp [Local.owns]
  have hordered := h.ordered
  rw [← hall, List.pairwise_append] at hordered
  refine ⟨fun id => ?_, h.ordered.sublist hsub, (h.depths List.suffix_rfl).2.sublist hsub,
    fun id hid => h.declared id (hsub.subset hid), fun id hid => ⟨?_, ?_⟩, fun id hid => ?_,
    fun id hid hkept => ?_⟩
  · rw [List.mem_filter, howns]
  · exact h.depth_ge (List.mem_filter.mp hid).1
  · rw [← length_stack]
    exact (h.depths List.suffix_rfl).1 id (hsub.subset hid)
  · exact h.unique id (howns.mp (List.mem_filter.mp hid).2)
  · exact Nat.lt_irrefl _ (hordered.2.2 id (List.mem_filter.mp hid).1 id hkept)

theorem ownedFrom_eq (f : Frame) (depth : Nat) :
    f.ownedFrom depth =
      (f.stack.take (f.height - depth)).flatten.filter fun id => (f.localAt id).owns := by
  unfold ownedFrom blocksFrom stack
  rw [← List.map_take, List.filter_flatten, List.map_map, ← List.flatMap_def]
  rfl

theorem releaseOrder_top_eq (f : Frame) :
    f.releaseOrder f.top = (f.stack.take 1).flatten.filter fun id => (f.localAt id).owns := by
  unfold releaseOrder top stack
  cases f.blocks <;> simp

theorem Tidy.releases_ownedFrom (h : f.Tidy) (depth : Nat) :
    f.Releases (f.height - depth) (f.ownedFrom depth) := by
  rw [ownedFrom_eq]
  exact h.releases _

theorem Tidy.closes (h : f.Tidy) : f.Closes (Check.endDrops f) := by
  unfold Check.endDrops
  refine ⟨fun hterminated => if_pos hterminated, fun hreached => ?_⟩
  rw [hreached, if_neg Bool.false_ne_true, releaseOrder_top_eq]
  exact h.releases 1

end Frame

namespace Check

open OwnLang.Core (stmtsEvery)

variable {ask ask' : Asker} {id : GlobalId} {origin c d : Context} {n : Nat} {scope : Scope}
  {nest : Core.Nest}

/-! ## Exits of statements and blocks -/

/-- The loop that a statement writes. -/
def loopForm? : Surface.StmtKind → Option LoopForm
  | .loop label condition body => some { label, condition := some condition, body }
  | .forLoop label init condition step body => some { label, init, condition, step, body }
  | _ => none

/-- The parts of a loop are those of steps that check it, behind which the block of its header
frees `exitDrops`. -/
def LoopExits (nest : Core.Nest) (s : Surface.Stmt) (scope : Scope) (c : Context) (id : LoopId)
    (init : Option Core.Stmt) (condition : Option Core.Expr) (step : Option Core.Stmt)
    (body : Core.Block) (exitDrops : List LocalId) : Prop :=
  ∃ form c₁, ∃ steps : LoopSteps answer id form scope (header c) c₁,
    loopForm? s.kind = some form ∧
    init = steps.init ∧ condition = steps.condition ∧ step = steps.step ∧ body = steps.body ∧
    Within (nest.inBlock.inLoop id) c₁ ∧ c₁.here.Closes exitDrops

/-- The release list of a statement that `s` is checked to is exact: for a `return` in the frame behind
its value and for all blocks around, for a jump for the body of its loop and the blocks inside, and
for a loop in the frame behind its parts and for the block of its header. -/
def ExitsExactly (nest : Core.Nest) (s : Surface.Stmt) (scope : Scope) (c : Context) :
    Core.StmtKind → Prop
  | .ret value drops => ∃ e c₁, s.kind = .ret e ∧
    returnedValue answer e c.here.returns s.span scope c = .ok value c₁ ∧
    Within nest c₁ ∧ c₁.here.Releases nest.depth drops
  | .brk target drops | .cont target drops => ∃ depth ≤ nest.depth,
    (∀ other, (target, other) ∈ nest.loops ↔ other = depth) ∧
    c.here.Releases (nest.depth - depth) drops
  | .loop id init condition step body exitDrops =>
    LoopExits nest s scope c id init condition step body exitDrops
  | .declare _ _ | .assign _ _ _ | .expr _ _ | .cond _ _ | .scope _ => True

/-- A statement of the body's tree is what a question that the body puts is answered with, where just
the blocks and loops are open that stand around it, and its release list is exact. -/
def StmtExact (id : GlobalId) (origin : Context) (nest : Core.Nest) (s : Core.Stmt) : Prop :=
  ∃ written scope c out d, Puts id origin (.stmt written scope) c ∧ Within nest c ∧
    answer (.stmt written scope) c = .ok out d ∧ s = out.flagged s.unreachable ∧
    ExitsExactly nest written scope c s.kind

/-- A block of the body's tree is what a question that the body puts is answered with, where just the
blocks and loops are open that stand around it, and its release list is exact where its statements
end. -/
def BlockExact (id : GlobalId) (origin : Context) (nest : Core.Nest) (b : Core.Block) : Prop :=
  ∃ written scope c outcome d c₁, Puts id origin (.block written scope) c ∧ Within nest c ∧
    answer (.block written scope) c = .ok (b, outcome) d ∧
    checkStmts answer scope written.stmts (c.reframe Frame.openBlock) = .ok b.stmts c₁ ∧
    Within nest.inBlock c₁ ∧ c₁.here.Closes b.drops

/-- A loop is gone through in the same steps with more answers. -/
def LoopSteps.more {loop : LoopId} {form : LoopForm} (steps : LoopSteps ask loop form scope c d)
    (h : FollowingFlat .plain ask ask') : LoopSteps ask' loop form scope c d where
  init := steps.init
  condition := steps.condition
  known := steps.known
  body := steps.body
  outcome := steps.outcome
  step := steps.step
  entered := steps.entered
  tested := steps.tested
  behind := steps.behind
  hinit := Run.follows_plain.mp (follows_optionalStmt h _ _) steps.hinit
  hcondition := Run.follows_plain.mp (follows_loopCondition h _ _) steps.hcondition
  hbody := Run.follows_plain.mp (follows_checkArm h _ _ _) steps.hbody
  hstep := Run.follows_plain.mp (follows_optionalStmt h _ _) steps.hstep

theorem followingBody_answer (h : n ≤ nestingBound) : FollowingBody .plain (answerTo n) answer :=
  followingBody_plain fun q => answerTo_plain h q

theorem exits_jumpStmt {s : Surface.Stmt} {jump : Jump} {label : Option Surface.Ident} {span : Span}
    {kind : Core.StmtKind} (h : jumpStmt jump label span c = .ok kind d) (hc : Within nest c) :
    ExitsExactly nest s scope c kind := by
  obtain ⟨i, loop, c₁, htarget, hcarried, rfl, -⟩ := jumpStmt_eq_ok h
  obtain ⟨hstack, hlocals⟩ := jump_keeps hc.toInFunction hcarried
  obtain ⟨j, -, hj⟩ := Option.bind_eq_some_iff.mp htarget
  obtain ⟨found, hfound, hpair⟩ := Option.map_eq_some_iff.mp hj
  cases hpair
  have hloop : loop ∈ c.here.loops := List.mem_of_getElem? hfound
  have honly (other : Nat) : (loop.id, other) ∈ nest.loops ↔ other = loop.bodyDepth := by
    rw [← hc.loops, List.mem_map]
    constructor
    · rintro ⟨loop', hloop', hpair⟩
      obtain ⟨hid, rfl⟩ := Prod.mk.inj hpair
      rw [List.inj_on_of_nodup_map hc.distinct hloop' hloop hid]
    · rintro rfl
      exact ⟨loop, hloop, rfl⟩
  have hheight : c₁.here.height = nest.depth := by
    rw [← hc.depth, ← Frame.length_stack, hstack, Frame.length_stack]
  have hreleases := (hc.tidy.congr hstack hlocals).releases_ownedFrom loop.bodyDepth
  rw [hheight] at hreleases
  have hexits := hreleases.congr hstack.symm hlocals.symm
  have hdeep := hc.depth ▸ hc.deep loop hloop
  cases jump with
  | brk => exact ⟨loop.bodyDepth, hdeep, honly, hexits⟩
  | cont => exact ⟨loop.bodyDepth, hdeep, honly, hexits⟩

theorem exits_returnStmt (hn : n ≤ nestingBound) {s : Surface.Stmt} {value : Option Surface.Expr}
    {kind : Core.StmtKind} (hs : s.kind = .ret value)
    (h : returnStmt (answerTo n) value s.span scope c = .ok kind d) (hc : Within nest c) :
    ExitsExactly nest s scope c kind := by
  obtain ⟨out, c₁, hout, rfl, -⟩ := returnStmt_eq_ok h
  have hc₁ : Within nest c₁ := hc.advances (rests_returnedValue (steady_answerTo n) hout).advances
    (inFunction_returnedValue (tidying_answerTo n) hout hc.toInFunction)
  have hreleases := hc₁.tidy.releases_ownedFrom 0
  rw [hc₁.depth] at hreleases
  exact ⟨value, c₁, hs, Run.follows_plain.mp
    (follows_returnedValue (followingBody_answer hn).toFollowingFlat _ _ _ _) hout, hc₁, hreleases⟩

theorem exits_loopStmt (hn : n ≤ nestingBound) {s : Surface.Stmt} {form : LoopForm}
    {kind : Core.StmtKind} (hs : loopForm? s.kind = some form)
    (h : loopStmt (answerTo n) form scope c = .ok kind d) (hc : Within nest c) :
    ExitsExactly nest s scope c kind := by
  obtain ⟨c₁, c₂, steps, -, -, rfl⟩ := loopStmt_eq_ok h
  have hc₁ := (hc.behind steps).optional steps.hstep
  exact ⟨form, c₁, steps.more (followingBody_answer hn).toFollowingFlat, hs, rfl, rfl, rfl, rfl, hc₁,
    hc₁.tidy.closes⟩

theorem exits_stmtKind (hn : n ≤ nestingBound) {s : Surface.Stmt} {kind : Core.StmtKind}
    (h : stmtKind (answerTo n) s scope c = .ok kind d) (hc : Within nest c) :
    ExitsExactly nest s scope c kind := by
  cases hkind : s.kind <;> simp only [stmtKind, hkind] at h
  case decl decl =>
    obtain ⟨steps, rfl⟩ := declStmt_eq_ok h
    trivial
  case assign target op value =>
    obtain ⟨steps, rfl⟩ := assignStmt_eq_ok h
    trivial
  case expr e =>
    obtain ⟨value, -, rfl⟩ := exprStmt_eq_ok h
    trivial
  case ret value => exact exits_returnStmt hn hkind h hc
  case brk label => exact exits_jumpStmt h hc
  case cont label => exact exits_jumpStmt h hc
  case cond branches otherwise =>
    obtain ⟨checked, b, last, b', c₁, c₂, -, -, rfl, -⟩ := condStmt_eq_ok h
    trivial
  case loop label condition body => exact exits_loopStmt hn (by rw [hkind]; rfl) h hc
  case forLoop label init condition step body => exact exits_loopStmt hn (by rw [hkind]; rfl) h hc
  case scope block =>
    obtain ⟨out, c₁, -, rfl, -⟩ := scopeStmt_eq_ok h
    trivial

/-! ## Bodies -/

theorem holdsPut_exact : HoldsPut id origin (StmtExact id origin) (BlockExact id origin) where
  stmt {n s scope c d out nest} dead h hc := by
    obtain ⟨kind, hkind, rfl⟩ := checkStmt_eq_ok h.inner.run
    exact ⟨s, scope, c, _, d, h.puts, hc, Run.follows_plain.mp (answerTo_plain h.bound _) h.run, rfl,
      exits_stmtKind h.inner.bound hkind hc⟩
  block {n b scope c d out nest} h hc := by
    obtain ⟨stmts, c₁, hstmts, -, rfl⟩ := checkBlock_eq_ok h.inner.run
    have hc₁ := hc.openBlock.stmts hstmts
    refine ⟨b, scope, c, c₁.here.top, d, c₁, h.puts, hc,
      Run.follows_plain.mp (answerTo_plain h.bound _) h.run, ?_, hc₁, hc₁.tidy.closes⟩
    exact Run.follows_plain.mp
      (follows_checkStmts (followingBody_answer h.inner.bound).toFollowingFlat _ _) hstmts

/-- Release lists are exact. The body of an accepted function is made of statements, in whose trees
every `return`, `break`, `continue`, loop and block frees just what the blocks own that control leaves
there; and where control reaches the end of the statements there is one more `return`, which frees what
the parameters and the other locals of the outermost block own. -/
theorem release_lists_exact {body : Body} (h : checkBody answer id c = .ok body d) :
    ∃ decl owner params returns c₁, ∃ steps : BodySteps answer id decl owner (c.global id).display
        (c.global id).scope params returns c₁ d,
      body = steps.body ∧ stmtsEvery (StmtExact id c) (BlockExact id c) ⟨1, []⟩ steps.stmts ∧
      (steps.behind.here.top.terminated = true ∧ steps.last = [] ∨
        steps.behind.here.top.terminated = false ∧ ∃ span drops,
          steps.last = [.mk (.ret none drops) span false] ∧
          steps.behind.here.height = 1 ∧ steps.behind.here.Releases 1 drops) := by
  obtain ⟨decl, owner, params, returns, c₁, steps, hbody, hevery⟩ := every_checkBody h holdsPut_exact
  refine ⟨decl, owner, params, returns, c₁, steps, hbody, hevery, ?_⟩
  rcases finalReturn_eq_ok steps.hlast with ⟨hterminated, hlast⟩ | ⟨hreached, -, span, hlast⟩
  · exact .inl ⟨hterminated, hlast⟩
  · refine .inr ⟨hreached, span, _, hlast, ?_⟩
    have hbehind := steps.within.stmts steps.hstmts
    rw [Frame.releaseOrder_top_eq]
    exact ⟨hbehind.depth, hbehind.tidy.releases 1⟩

/-- `fn f(p: &i32, c: bool) {
      for @out (var q = new i32(1); c;) {
        var r = new i32(1); while (c) { var s = new i32(1); break @out; } } }` -/
def nestedModule : Surface.Module :=
  let named (name : String) : Surface.Expr := .mk (.path [⟨name, .null⟩] []) .null
  let type (name : String) : Surface.TypeExpr := .mk (.named [⟨name, .null⟩] []) .null
  let cell : Surface.Expr := .mk (.new (type "i32") (.mk (.number 1) .null)) .null
  let allocate (name : String) : Surface.Stmt :=
    .mk (.decl ⟨⟨name, .null⟩, false, none, some cell⟩) .null
  let leave : Surface.Stmt := .mk (.brk (some ⟨"out", .null⟩)) .null
  let inner : Surface.Stmt := .mk (.loop none (named "c") (.mk [allocate "s", leave] .null)) .null
  let outer : Surface.Stmt := .mk (.forLoop (some ⟨"out", .null⟩) (some (allocate "q"))
    (some (named "c")) none (.mk [allocate "r", inner] .null)) .null
  let f : Surface.FnDecl :=
    { name := ⟨"f", .null⟩, kind := .plain, variadic := false, returns := none, span := .null
      params := [⟨⟨"p", .null⟩, .mk (.owner (type "i32") false) .null⟩, ⟨⟨"c", .null⟩, type "bool"⟩]
      body := some (.mk [outer] .null) }
  { file := "nested.own", package := ⟨"nested", .null⟩, imports := []
    items := [⟨.function f, [], .null⟩] }

/-- The lists of the loop, which frees three values in three blocks, are exact. -/
theorem release_lists_exact_nested :
    ∃ c body d, checkBody answer ⟨0⟩ c = .ok body d ∧ ∃ stmts last,
      body.block = .mk (stmts ++ last) [] ∧ stmts ≠ [] ∧
        stmtsEvery (StmtExact ⟨0⟩ c) (BlockExact ⟨0⟩ c) ⟨1, []⟩ stmts := by
  have hrun : ((do
      checkModules [nestedModule]
      let body ← checkBody answer ⟨0⟩
      return body.block.stmts.length : Check Nat) { options := .library }).value? = some 2 := by
    decide +kernel
  obtain ⟨_, hmodules⟩ := Outcome.value?_eq_some.mp hrun
  obtain ⟨_, c, -, hbody⟩ := Run.bind_eq_ok.mp hmodules
  obtain ⟨body, d, hbody, hlength⟩ := Run.bind_eq_ok.mp hbody
  obtain ⟨decl, owner, params, returns, c₁, steps, rfl, hevery, hlast⟩ := release_lists_exact hbody
  refine ⟨c, _, d, hbody, steps.stmts, steps.last, rfl, fun hnone => ?_, hevery⟩
  have htwo : (steps.stmts ++ steps.last).length = 2 := (Outcome.ok.inj hlength).1
  rw [hnone, List.nil_append] at htwo
  rcases hlast with ⟨-, hlast⟩ | ⟨-, span, drops, hlast, -⟩
  all_goals
    rw [hlast] at htwo
    cases htwo

end Check

end OwnLang
