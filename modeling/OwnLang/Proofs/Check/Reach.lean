import Mathlib
import OwnLang.Proofs.Check.Advance
import OwnLang.Proofs.Check.Body
import OwnLang.Proofs.Core.Walk

/-!
# Where control goes

Checking follows control: a block that is *terminated* is one whose end is not reached, and the loop
that a reachable `break` leaves is marked. `Core.Walk.Obeys` says that a walk does what checking
found: it reaches no flagged statement, it does not fall through a part whose end is not reached,
and it jumps to loops that are open, marked ones for a `break`. Every walk through what an accepted
statement or block is checked to does so (`guided_answerTo`), so a walk through a body can only
return (`walk_checkBody`).
-/

namespace OwnLang

open OwnLang.Core (Walk Part walk)

/-- What a walk does through a part of a body, with the frame at the end of the part; `ended` tells
that checking has found the end of the part not to be reached. -/
structure Core.Walk.Obeys (g : Frame) (ended : Bool) (w : Walk) : Prop where
  live : .dead ∉ w.events
  falls : w.exit = .falls → ended = false
  breaks : ∀ l, w.exit = .breaks l → ∃ loop ∈ g.loops, loop.id = l ∧ loop.hasBreak = true
  continues : ∀ l, w.exit = .continues l → ∃ loop ∈ g.loops, loop.id = l

namespace Core.Walk

variable {g k : Frame} {e e' : Bool} {w : Walk}

theorem obeys_cut (time : Nat) : (⟨[], .cut, [], time⟩ : Walk).Obeys g e :=
  ⟨List.not_mem_nil, nofun, nofun, nofun⟩

/-- A walk that falls through at once, or behind some events. -/
theorem obeys_falls {events : List Event} (h : .dead ∉ events) (he : e = false)
    (passed : List LocalId) (time : Nat) : (⟨events, .falls, passed, time⟩ : Walk).Obeys g e :=
  ⟨h, fun _ => he, nofun, nofun⟩

theorem Obeys.mono (h : w.Obeys g e) (hloops : List.Forall₂ LoopFrame.Grows g.loops k.loops)
    (he : e' = true → e = true) : w.Obeys k e' where
  live := h.live
  falls hw := by
    have hfalls := h.falls hw
    cases e' with
    | false => rfl
    | true => exact (he rfl).symm.trans hfalls
  breaks l hw := by
    obtain ⟨loop, hloop, hid, hbreak⟩ := h.breaks l hw
    obtain ⟨loop', hloop', hgrows⟩ := Frame.mem_loops hloops hloop
    exact ⟨loop', hloop', hgrows.id.trans hid, hgrows.hasBreak hbreak⟩
  continues l hw := by
    obtain ⟨loop, hloop, hid⟩ := h.continues l hw
    obtain ⟨loop', hloop', hgrows⟩ := Frame.mem_loops hloops hloop
    exact ⟨loop', hloop', hgrows.id.trans hid⟩

theorem Obeys.within (h : w.Obeys g e) (ids : List LocalId) : (w.within ids).Obeys g e :=
  ⟨h.live, h.falls, h.breaks, h.continues⟩

theorem Obeys.after (h : w.Obeys g e) {events : List Event} (hevents : .dead ∉ events) :
    (w.after events).Obeys g e :=
  ⟨fun hmem => (List.mem_append.mp hmem).elim hevents h.live, h.falls, h.breaks, h.continues⟩

theorem Obeys.passing (h : w.Obeys g e) (ids : List LocalId) : (w.passing ids).Obeys g e := by
  unfold Walk.passing
  split
  · refine ⟨fun hmem => ?_, h.falls, h.breaks, h.continues⟩
    rcases List.mem_append.mp hmem with hmem | hmem
    · exact h.live hmem
    · simp at hmem
  all_goals exact ⟨h.live, h.falls, h.breaks, h.continues⟩

/-- Where control does not reach the end of a part, it does not matter what follows. -/
theorem Obeys.andThen (h : w.Obeys g e) (hloops : List.Forall₂ LoopFrame.Grows g.loops k.loops)
    (ids : List LocalId) {next : Nat → Walk} (hnext : e = false → ∀ time, (next time).Obeys k e') :
    (w.andThen ids next).Obeys k e' := by
  unfold Walk.andThen
  split
  · rename_i hfalls
    exact (hnext (h.falls hfalls) _).after h.live
  · rename_i hjumps
    have hk : w.Obeys k true := by
      have hmono : w.Obeys k false := h.mono hloops nofun
      exact ⟨hmono.live, fun hw => absurd hw hjumps, hmono.breaks, hmono.continues⟩
    exact (hk.passing ids).mono (Frame.loops_refl _) fun _ => rfl

end Core.Walk

namespace Check

variable {ask : Asker} {scope : Scope} {c d : Context} {skip : Bool} {choose : Nat → Bool}

/-- Control is at a point of a body, and the loops around it are told apart by their numbers. -/
structure Live (c : Context) : Prop where
  frame : c.frame.isSome = true
  reached : c.here.unreachable = 0
  blocks : c.here.blocks ≠ []
  numbered : ∀ loop ∈ c.here.loops, loop.id.index ≤ c.loopCount
  distinct : (c.here.loops.map (·.id)).Nodup

theorem Live.steps (hc : Live c) (h : c.Steps Frame.Advances d) : Live d := by
  have hadvances := h.here (.refl _)
  refine ⟨?_, hadvances.unreachable.trans hc.reached, fun hnil => ?_, fun loop hloop => ?_, ?_⟩
  · obtain ⟨f, hf⟩ := Option.isSome_iff_exists.mp hc.frame
    obtain ⟨g, hg, -⟩ := h.exists hf
    rw [hg]
    rfl
  · have hheight := hadvances.height
    unfold Frame.height at hheight
    rw [hnil] at hheight
    exact hc.blocks (List.length_eq_zero_iff.mp hheight.symm)
  · have hid : loop.id ∈ c.here.loops.map (·.id) := by
      rw [← Frame.loops_ids hadvances.loops]
      exact List.mem_map_of_mem hloop
    obtain ⟨loop', hloop', hsame⟩ := List.mem_map.mp hid
    rw [← hsame]
    exact (hc.numbered loop' hloop').trans h.loopCount
  · rw [Frame.loops_ids hadvances.loops]
    exact hc.distinct

theorem Live.here_reframe (hc : Live c) (change : Frame → Frame) :
    (c.reframe change).here = change c.here := by
  obtain ⟨f, hf⟩ := Option.isSome_iff_exists.mp hc.frame
  unfold Context.reframe Context.here
  rw [hf]
  rfl

theorem Live.openBlock (hc : Live c) : Live (c.reframe Frame.openBlock) := by
  have hhere := hc.here_reframe Frame.openBlock
  refine ⟨?_, ?_, ?_, ?_, ?_⟩
  · unfold Context.reframe
    rw [Option.isSome_map]
    exact hc.frame
  · rw [hhere]
    exact hc.reached
  · rw [hhere]
    exact List.cons_ne_nil _ _
  · rw [hhere]
    exact hc.numbered
  · rw [hhere]
    exact hc.distinct

theorem Live.enter (hc : Live c) {id : LoopId} (hid : ∀ loop ∈ c.here.loops, loop.id.index < id.index)
    (hcount : id.index ≤ c.loopCount) (form : LoopForm) : Live (c.reframe (form.enter id)) := by
  have hhere := hc.here_reframe (form.enter id)
  refine ⟨?_, ?_, ?_, ?_, ?_⟩
  · unfold Context.reframe
    rw [Option.isSome_map]
    exact hc.frame
  · rw [hhere]
    exact hc.reached
  · rw [hhere]
    exact hc.blocks
  · rw [hhere]
    intro loop hloop
    rcases List.mem_cons.mp hloop with rfl | hloop
    · exact hcount
    · exact hc.numbered loop hloop
  · rw [hhere]
    refine List.nodup_cons.mpr ⟨fun hmem => ?_, hc.distinct⟩
    obtain ⟨loop, hloop, hsame⟩ := List.mem_map.mp hmem
    have hlt := hid loop hloop
    rw [hsame] at hlt
    exact Nat.lt_irrefl _ hlt

/-- What checking has found of the end of a statement, from the blocks in front of it and behind
it. -/
def ended (f g : Frame) : Bool := g.top.terminated && !f.top.terminated

/-- The answers to queries guide control. -/
structure Guided (ask : Asker) : Prop where
  stmt : ∀ {s scope c d out}, ask (.stmt s scope) c = .ok out d → Live c →
    out.unreachable = false ∧ ∀ skip choose n time,
      (walk skip choose n (.kind out.kind) time).Obeys d.here (ended c.here d.here)
  block : ∀ {b scope c d out}, ask (.block b scope) c = .ok out d → Live c →
    ∀ skip choose n time, (walk skip choose n (.block out.1) time).Obeys d.here out.2.terminated

/-- A statement that is not flagged is its form. -/
theorem obeys_stmt {s : Core.Stmt} {g : Frame} {e : Bool} (hs : s.unreachable = false)
    (h : ∀ n time, (walk skip choose n (.kind s.kind) time).Obeys g e) (n time : Nat) :
    (walk skip choose n (.stmt s) time).Obeys g e := by
  cases n with
  | zero => exact Core.Walk.obeys_cut time
  | succ n =>
    simp only [walk, hs]
    exact h n time

/-- A condition that is known decides alone. -/
theorem obeys_decide {condition : Core.Expr} {taken other : Nat → Walk} {g : Frame} {e : Bool}
    (htaken : condition.known? ≠ some false → ∀ time, (taken time).Obeys g e)
    (hother : condition.known? ≠ some true → ∀ time, (other time).Obeys g e) (time : Nat) :
    (condition.decide choose taken other time).Obeys g e := by
  unfold Core.Expr.decide
  dsimp only
  refine Core.Walk.Obeys.after ?_ (by simp)
  unfold Core.Expr.holds
  cases hknown : condition.known? with
  | none =>
    dsimp only
    split
    · exact htaken (by simp [hknown]) _
    · exact hother (by simp [hknown]) _
  | some value =>
    cases value with
    | true => exact htaken (by simp [hknown]) _
    | false => exact hother (by simp [hknown]) _

section

variable (hs : Steady ask) (hg : Guided ask)

include hs hg

/-- Statements that control reaches, with what is put behind them. -/
theorem obeys_checkStmts {stmts : List Surface.Stmt} {out tail : List Core.Stmt} {g : Frame}
    {e : Bool} (h : checkStmts ask scope stmts c = .ok out d) (hc : Live c)
    (hterminated : c.here.top.terminated = false)
    (hloops : List.Forall₂ LoopFrame.Grows d.here.loops g.loops)
    (htail : d.here.top.terminated = false →
      ∀ n time, (walk skip choose n (.stmts tail) time).Obeys g e)
    (n time : Nat) : (walk skip choose n (.stmts (out ++ tail)) time).Obeys g e := by
  induction stmts generalizing c out n time with
  | nil =>
    cases h
    exact htail hterminated n time
  | cons stmt rest ih =>
    rcases checkStmts_cons_eq_ok h with ⟨hdead, -⟩ | ⟨-, s, c₁, after, hstmt, hafter, rfl⟩
    · exact absurd (hterminated.symm.trans hdead) Bool.false_ne_true
    have hsteps := hs.stmt hstmt
    have hc₁ := hc.steps hsteps
    have hflagged : (s.flagged (0 < c₁.here.unreachable)).unreachable = false := by
      rw [hc₁.reached]
      rfl
    obtain ⟨-, hobeys⟩ := hg.stmt hstmt hc
    cases n with
    | zero => exact Core.Walk.obeys_cut time
    | succ n =>
      have hloops₁ := Frame.loops_trans ((advances_checkStmts hs hafter).here (.refl _)).loops hloops
      refine (obeys_stmt hflagged (hobeys skip choose) n time).andThen hloops₁ _ fun hreached => ?_
      refine ih hafter hc₁ ?_ n
      rwa [ended, hterminated, Bool.not_false, Bool.and_true] at hreached

theorem obeys_checkBlock {block : Surface.Block} {out : Core.Block × BlockFrame}
    (h : checkBlock ask block scope c = .ok out d) (hc : Live c) (n time : Nat) :
    (walk skip choose n (.block out.1) time).Obeys d.here out.2.terminated := by
  obtain ⟨stmts, c₁, hstmts, hsettle, rfl⟩ := checkBlock_eq_ok h
  have hopen : (c.reframe Frame.openBlock).here.top.terminated = false := by
    rw [hc.here_reframe]
    rfl
  cases n with
  | zero => exact Core.Walk.obeys_cut time
  | succ n =>
    have hloops : List.Forall₂ LoopFrame.Grows c₁.here.loops d.here.loops := by
      have hsettled := ((advances_settleMoves hsettle).here (.refl _)).loops
      rwa [c₁.here_reframe rfl] at hsettled
    have hwalk : (walk skip choose n (.stmts (stmts ++ [])) time).Obeys c₁.here
        c₁.here.top.terminated := by
      refine obeys_checkStmts hs hg hstmts hc.openBlock hopen (Frame.loops_refl _) ?_ n time
      intro hreached n time
      cases n with
      | zero => exact Core.Walk.obeys_cut time
      | succ n => exact Core.Walk.obeys_falls List.not_mem_nil hreached [] time
    rw [List.append_nil] at hwalk
    refine (hwalk.andThen hloops [] fun hreached time => ?_).within _
    exact Core.Walk.obeys_falls (by simp) hreached [] time

omit hs in
theorem obeys_checkArm {block : Surface.Block} {out : Core.Block × BlockFrame}
    (h : checkArm ask block false scope c = .ok out d) (hc : Live c) (n time : Nat) :
    (walk skip choose n (.block out.1) time).Obeys d.here out.2.terminated := by
  rcases checkArm_eq_ok h with ⟨-, hblock⟩ | ⟨hdead, -⟩
  · exact hg.block hblock hc skip choose n time
  · cases hdead

/-! ## Branches -/

omit hs hg in
theorem allTerminated_addBranch {b : Branching} {known : Option Bool} {outcome : BlockFrame}
    (h : (b.addBranch known outcome).allTerminated = true) : b.allTerminated = true := by
  unfold Branching.addBranch Branching.add at h
  split at h
  · exact h
  · dsimp only at h
    split at h
    all_goals exact (Bool.and_eq_true_iff.mp h).1

omit hs hg in
theorem terminated_addBranch {b : Branching} {known : Option Bool} {outcome : BlockFrame}
    (hb : b.decided = false) (hknown : known ≠ some false)
    (h : (b.addBranch known outcome).allTerminated = true) : outcome.terminated = true := by
  unfold Branching.addBranch Branching.add at h
  rw [hb, if_neg (by simpa using hknown)] at h
  split at h
  all_goals exact (Bool.and_eq_true_iff.mp h).2

omit hs hg in
theorem undecided_addBranch {b : Branching} {known : Option Bool} {outcome : BlockFrame}
    (hknown : known ≠ some true) :
    (b.addBranch known outcome).decided = b.decided ∧
      (b.addBranch known outcome).exhaustive = b.exhaustive := by
  unfold Branching.addBranch Branching.add
  rw [if_neg hknown]
  split <;> exact ⟨rfl, rfl⟩

omit hs hg in
theorem allTerminated_checkBranches {b : Branching}
    {branches : List (Surface.Expr × Surface.Block)} {out : List (Core.Expr × Core.Block)}
    {b' : Branching} (h : checkBranches ask scope b branches c = .ok (out, b') d)
    (hb' : b'.allTerminated = true) : b.allTerminated = true := by
  induction branches generalizing b c out with
  | nil =>
    cases h
    exact hb'
  | cons branch rest ih =>
    obtain ⟨test, block, outcome, checked, b₁, c₁, c₂, -, -, hrest, hout⟩ :=
      checkBranches_cons_eq_ok h
    cases hout
    exact allTerminated_addBranch (ih hrest)

omit hs hg in
theorem allTerminated_checkOtherwise {b : Branching} {otherwise : Option Surface.Block}
    {last : Option Core.Block} {b' : Branching}
    (h : checkOtherwise ask scope b otherwise c = .ok (last, b') d)
    (hb' : b'.allTerminated = true) : b.allTerminated = true := by
  cases otherwise with
  | none =>
    cases h
    exact hb'
  | some body =>
    obtain ⟨block, outcome, -, hout⟩ := checkOtherwise_some_eq_ok h
    cases hout
    split at hb'
    · exact hb'
    · exact (Bool.and_eq_true_iff.mp hb').1

/-- Branches of which none was known to be taken so far, with the `else` behind them. -/
theorem obeys_branches {b b' b'' : Branching} {branches : List (Surface.Expr × Surface.Block)}
    {otherwise : Option Surface.Block} {out : List (Core.Expr × Core.Block)}
    {last : Option Core.Block} {c₁ : Context}
    (hbranches : checkBranches ask scope b branches c = .ok (out, b') c₁)
    (hotherwise : checkOtherwise ask scope b' otherwise c₁ = .ok (last, b'') d) (hc : Live c)
    (hdecided : b.decided = false) (hexhaustive : b.exhaustive = false) (n time : Nat) :
    (walk skip choose n (.branches out last) time).Obeys d.here
      (b''.exhaustive && b''.allTerminated) := by
  induction branches generalizing b c out n time with
  | nil =>
    cases hbranches
    cases n with
    | zero => exact Core.Walk.obeys_cut time
    | succ n =>
      cases otherwise with
      | none =>
        cases hotherwise
        refine Core.Walk.obeys_falls List.not_mem_nil ?_ [] time
        rw [hexhaustive, Bool.false_and]
      | some body =>
        obtain ⟨block, outcome, harm, hout⟩ := checkOtherwise_some_eq_ok hotherwise
        cases hout
        rw [hdecided] at harm ⊢
        refine (obeys_checkArm hg harm hc n time).mono (Frame.loops_refl _) fun he => ?_
        exact (Bool.and_eq_true_iff.mp (Bool.and_eq_true_iff.mp he).2).2
  | cons branch rest ih =>
    obtain ⟨test, block, outcome, checked, b₁, c₂, c₃, htest, harm, hrest, hout⟩ :=
      checkBranches_cons_eq_ok hbranches
    cases hout
    have hsteps := (hs.expr rfl htest).rests
    have hc₂ := hc.steps hsteps.advances
    have harms := rests_checkArm hs harm
    have hrests := (rests_checkBranches hs hrest).transRests (rests_checkOtherwise hs hotherwise)
    cases n with
    | zero => exact Core.Walk.obeys_cut time
    | succ n =>
      refine obeys_decide ?_ ?_ time
      · intro hknown t
        have hlive : (b.decided || test.known? = some false) = false := by
          rw [hdecided, Bool.false_or]
          simpa using hknown
        rw [hlive] at harm
        refine ((obeys_checkArm hg harm hc₂ n t).mono (hrests.here (.refl _)).loops
          fun he => ?_).passing _
        exact terminated_addBranch hdecided hknown (allTerminated_checkBranches hrest
          (allTerminated_checkOtherwise hotherwise (Bool.and_eq_true_iff.mp he).2))
      · intro hknown t
        have hkept : (b.addBranch test.known? outcome).decided = b.decided ∧
            (b.addBranch test.known? outcome).exhaustive = b.exhaustive :=
          undecided_addBranch hknown
        refine Core.Walk.Obeys.after ?_ (by simp)
        exact ih hrest (hc₂.steps harms.advances) (hkept.1.trans hdecided)
          (hkept.2.trans hexhaustive) n t

theorem obeys_condStmt {branches : List (Surface.Expr × Surface.Block)}
    {otherwise : Option Surface.Block} {kind : Core.StmtKind}
    (h : condStmt ask branches otherwise scope c = .ok kind d) (hc : Live c) (n time : Nat) :
    (walk skip choose n (.kind kind) time).Obeys d.here (ended c.here d.here) := by
  obtain ⟨checked, b, last, b', c₁, c₂, hbranches, hotherwise, rfl, rfl⟩ := condStmt_eq_ok h
  have hrests := (rests_checkBranches hs hbranches).transRests (rests_checkOtherwise hs hotherwise)
  have hc₂ := hc.steps hrests.advances
  rw [hc₂.here_reframe]
  cases n with
  | zero => exact Core.Walk.obeys_cut time
  | succ n =>
    refine (obeys_branches hs hg hbranches hotherwise hc rfl rfl n time).mono ?_ fun he => ?_
    · rw [Frame.modifyTop_loops]
      exact Frame.loops_refl _
    · unfold ended at he
      rw [Frame.modifyTop_top hc₂.blocks, Bool.and_eq_true_iff,
        ← (hrests.here (.refl _)).top.terminated] at he
      by_contra hb
      unfold Branching.leave at he
      rw [if_neg hb] at he
      simp [he.1] at he

theorem obeys_scopeStmt {block : Surface.Block} {kind : Core.StmtKind}
    (h : scopeStmt ask block scope c = .ok kind d) (hc : Live c) (n time : Nat) :
    (walk skip choose n (.kind kind) time).Obeys d.here (ended c.here d.here) := by
  obtain ⟨⟨block, inner⟩, c₁, hblock, rfl, rfl⟩ := scopeStmt_eq_ok h
  have hrests := hs.block hblock
  have hc₁ := hc.steps hrests.advances
  rw [hc₁.here_reframe]
  cases n with
  | zero => exact Core.Walk.obeys_cut time
  | succ n =>
    refine (hg.block hblock hc skip choose n time).mono ?_ fun he => ?_
    · rw [Frame.modifyTop_loops]
      exact Frame.loops_refl _
    · unfold ended at he
      rw [Frame.modifyTop_top hc₁.blocks, Bool.and_eq_true_iff,
        ← (hrests.here (.refl _)).top.terminated] at he
      unfold scopeLeave BlockFrame.terminated at he
      unfold BlockFrame.terminated
      revert he
      cases c₁.here.top.returned <;> cases c₁.here.top.jumpedTo <;> simp

/-! ## Simple statements and jumps -/

omit hs hg in
theorem obeys_ending (uses : Core.Uses) {events : List Core.Event} {exit : Core.Exit} {g : Frame}
    {e : Bool} (h : .dead ∉ events) (hexit : exit = .falls ∧ e = false ∨ exit = .returns)
    (time : Nat) : (uses.ending events exit time).Obeys g e := by
  have hlive : .dead ∉ (uses time).1.map .use ++ events := by
    intro hmem
    rcases List.mem_append.mp hmem with hmem | hmem
    · simp at hmem
    · exact h hmem
  rcases hexit with ⟨rfl, he⟩ | rfl
  · exact ⟨hlive, fun _ => he, nofun, nofun⟩
  · exact ⟨hlive, nofun, nofun, nofun⟩

omit hs hg in
theorem ended_eq_false {f g : Frame} (h : g.top.terminated = f.top.terminated) :
    ended f g = false := by
  rw [ended, h, Bool.and_not_self]

omit hg in
theorem obeys_declStmt {decl : Surface.VarDecl} {kind : Core.StmtKind}
    (h : declStmt ask decl scope c = .ok kind d) (hc : Live c) (n time : Nat) :
    (walk skip choose n (.kind kind) time).Obeys d.here (ended c.here d.here) := by
  obtain ⟨steps, rfl⟩ := declStmt_eq_ok h
  obtain ⟨-, hdeclared⟩ := declareLocal_eq_ok steps.hdeclare
  have hrests := rests_decl hs steps
  cases n with
  | zero => exact Core.Walk.obeys_cut time
  | succ n =>
    refine obeys_ending _ (by simp) (.inl ⟨rfl, ended_eq_false ?_⟩) time
    rw [← (hrests.here (.refl _)).top.terminated]
    have htop := congrArg (fun c => c.here.top.terminated) hdeclared
    rw [htop, (hc.steps hrests.advances).here_reframe, Frame.terminated_declare]

omit hg in
theorem obeys_assignStmt {target value : Surface.Expr} {op : Option Surface.ArithmeticOp}
    {kind : Core.StmtKind} (h : assignStmt ask target op value scope c = .ok kind d) (hc : Live c)
    (n time : Nat) :
    (walk skip choose n (.kind kind) time).Obeys d.here (ended c.here d.here) := by
  obtain ⟨steps, rfl⟩ := assignStmt_eq_ok h
  have hrests := rests_assign hs steps
  cases n with
  | zero => exact Core.Walk.obeys_cut time
  | succ n =>
    refine obeys_ending _ ?_ (.inl ⟨rfl, ended_eq_false ?_⟩) time
    · split
      · split <;> simp
      · simp
    · rw [← (hrests.here (.refl _)).top.terminated]
      rcases takeOwnership_eq_ok steps.hstored with ⟨-, -, hsame⟩ | ⟨-, id, -, -, hown⟩
      · exact congrArg (fun c => c.here.top.terminated) hsame
      · have htop := congrArg (fun c => c.here.top.terminated) hown
        rw [htop, (hc.steps hrests.advances).here_reframe, Frame.terminated_own]

omit hg in
theorem obeys_exprStmt {e : Surface.Expr} {kind : Core.StmtKind}
    (h : exprStmt ask e scope c = .ok kind d) (n time : Nat) :
    (walk skip choose n (.kind kind) time).Obeys d.here (ended c.here d.here) := by
  obtain ⟨value, hvalue, rfl⟩ := exprStmt_eq_ok h
  have hrests := (hs.evaluated hvalue fun _ hP => preserves_rawValue hP _ _ _).rests
  cases n with
  | zero => exact Core.Walk.obeys_cut time
  | succ n =>
    exact obeys_ending _ List.not_mem_nil
      (.inl ⟨rfl, ended_eq_false (hrests.here (.refl _)).top.terminated⟩) time

omit hs hg in
theorem obeys_returnStmt {value : Option Surface.Expr} {span : Span} {kind : Core.StmtKind}
    (h : returnStmt ask value span scope c = .ok kind d) (n time : Nat) :
    (walk skip choose n (.kind kind) time).Obeys d.here (ended c.here d.here) := by
  obtain ⟨out, c₁, -, rfl, -⟩ := returnStmt_eq_ok h
  cases n with
  | zero => exact Core.Walk.obeys_cut time
  | succ n => exact obeys_ending _ (by simp) (.inr rfl) time

omit hs hg in
/-- A reachable jump is to a loop that is open, and a `break` marks that loop. -/
theorem obeys_jumpStmt {jump : Jump} {label : Option Surface.Ident} {span : Span}
    {kind : Core.StmtKind} (h : jumpStmt jump label span c = .ok kind d) (hc : Live c)
    (n time : Nat) : (walk skip choose n (.kind kind) time).Obeys d.here (ended c.here d.here) := by
  obtain ⟨i, loop, c₁, htarget, hcarried, rfl, rfl⟩ := jumpStmt_eq_ok h
  rcases hcarried with ⟨-, carried, hcarried, rfl⟩ | ⟨hdead, -⟩
  · have hloop : c.here.loops[i]? = some loop := by
      unfold jumpTarget? at htarget
      obtain ⟨j, -, hj⟩ := Option.bind_eq_some_iff.mp htarget
      obtain ⟨l, hl, hpair⟩ := Option.map_eq_some_iff.mp hj
      cases hpair
      exact hl
    have hmem : ∃ l ∈ (jumpLeaves c.here jump i).loops, l.id = loop.id ∧
        (jump = .brk → l.hasBreak = true) := by
      unfold jumpLeaves
      split
      · refine ⟨{ loop with hasBreak := true }, ?_, rfl, fun _ => rfl⟩
        refine List.mem_of_getElem? (i := i) ?_
        rw [List.getElem?_modify_eq, hloop]
        rfl
      · rename_i hcont
        exact ⟨loop, List.mem_of_getElem? hloop, rfl, fun hbrk => absurd hbrk hcont⟩
    obtain ⟨l, hl, hid, hbreak⟩ := hmem
    obtain ⟨l', hl', hgrows⟩ := Frame.mem_loops (Frame.rests_carryMoves hcarried).loops hl
    have hc₁ : (c.reframe fun _ => carried).here = carried := hc.here_reframe _
    have hd : ((c.reframe fun _ => carried).reframe fun f => f.modifyTop fun b =>
        { b with jumpedTo := some loop.id }).here.loops = carried.loops := by
      rw [Context.reframe_reframe, hc.here_reframe]
      exact Frame.modifyTop_loops _ _
    rw [← hd] at hl'
    cases n with
    | zero => exact Core.Walk.obeys_cut time
    | succ n =>
      cases jump with
      | brk =>
        refine ⟨by simp [Jump.kind, walk], (fun h => by cases h), fun t ht => ?_,
          fun _ h => by cases h⟩
        cases ht
        exact ⟨l', hl', hgrows.id.trans hid, hgrows.hasBreak (hbreak rfl)⟩
      | cont =>
        refine ⟨by simp [Jump.kind, walk], (fun h => by cases h), (fun _ h => by cases h),
          fun t ht => ?_⟩
        cases ht
        exact ⟨l', hl', hgrows.id.trans hid⟩
  · exact absurd hc.reached hdead

/-! ## Loops -/

section

variable {g k : Frame} {head : LoopFrame} (hhead : g.loops = head :: k.loops)

include hhead

omit hs hg in
/-- A walk through a part of a loop: its jumps are to that loop or to one around it. -/
theorem obeys_inLoop {w : Walk} {e e' : Bool} (hw : w.Obeys g e)
    (hdistinct : (g.loops.map (·.id)).Nodup) (ids : List LocalId) {falls next leave : Nat → Walk}
    (hfalls : e = false → ∀ time, (falls time).Obeys k e')
    (hnext : ∀ time, (next time).Obeys k e')
    (hleave : head.hasBreak = true → ∀ time, (leave time).Obeys k e') :
    (w.inLoop head.id ids falls next leave).Obeys k e' := by
  have hlive (passed : List LocalId) : Core.Event.dead ∉ w.events ++ passed.map .around := by
    intro hmem
    rcases List.mem_append.mp hmem with hmem | hmem
    · exact hw.live hmem
    · simp at hmem
  have houter {l : LoopFrame} (hl : l ∈ g.loops) (hid : ¬ l.id = head.id) : l ∈ k.loops := by
    rw [hhead] at hl
    rcases List.mem_cons.mp hl with rfl | hl
    · exact absurd rfl hid
    · exact hl
  unfold Walk.inLoop
  split
  · rename_i hexit
    exact (hfalls (hw.falls hexit) _).after hw.live
  · rename_i target hexit
    split
    · exact (hnext _).after (hlive _)
    · rename_i hother
      obtain ⟨l, hl, hid⟩ := hw.continues target hexit
      refine Core.Walk.Obeys.passing ⟨hw.live, ?_, ?_, fun t ht => ?_⟩ _
      · rw [hexit]
        nofun
      · rw [hexit]
        nofun
      · rw [hexit] at ht
        cases ht
        exact ⟨l, houter hl (hid ▸ hother), hid⟩
  · rename_i target hexit
    obtain ⟨l, hl, hid, hbreak⟩ := hw.breaks target hexit
    split
    · rename_i hown
      have hsame : l = head := by
        rw [hhead, List.map_cons, List.nodup_cons] at hdistinct
        rw [hhead] at hl
        rcases List.mem_cons.mp hl with rfl | hl
        · rfl
        · exact absurd (List.mem_map.mpr ⟨l, hl, hid.trans hown⟩) hdistinct.1
      rw [hsame] at hbreak
      exact (hleave hbreak _).after (hlive _)
    · rename_i hother
      refine Core.Walk.Obeys.passing ⟨hw.live, ?_, fun t ht => ?_, ?_⟩ _
      · rw [hexit]
        nofun
      · rw [hexit] at ht
        cases ht
        exact ⟨l, houter hl (hid ▸ hother), hid, hbreak⟩
      · rw [hexit]
        nofun
  · rename_i hfalls hcont hbrk
    exact ⟨hw.live, fun h => absurd h hfalls, fun l h => absurd h (hbrk l),
      fun l h => absurd h (hcont l)⟩

omit hs hg in
/-- A loop goes on forever if its condition is always true and no reachable `break` leaves it. The
frame `g` is the one at the end of its step, and `k` the one behind the loop. -/
theorem obeys_loop {loop : Core.Loop} {known : Option Bool} {e e' : Bool}
    (hid : head.id = loop.id) (hdistinct : (g.loops.map (·.id)).Nodup)
    (hknown : (loop.condition = none ∧ known = some true) ∨
      ∃ test, loop.condition = some test ∧ known = test.known?)
    (hbody : known ≠ some false → ∀ n time,
      (walk skip choose n (.block loop.body) time).Obeys g e)
    (hstep : ∀ n time, (walk skip choose n (.optional loop.step) time).Obeys g e') (n : Nat) :
    (∀ again time, (walk skip choose n (.test loop again) time).Obeys k
      (known = some true && !head.hasBreak)) ∧
    ∀ time, (walk skip choose n (.step loop) time).Obeys k (known = some true && !head.hasBreak) := by
  induction n with
  | zero => exact ⟨fun _ time => Core.Walk.obeys_cut time, fun time => Core.Walk.obeys_cut time⟩
  | succ n ih =>
    obtain ⟨htest, hsteps⟩ := ih
    have hleft (h : (known = some true && !head.hasBreak) = false) (time : Nat) :
        (loop.left time).Obeys k (known = some true && !head.hasBreak) :=
      Core.Walk.obeys_falls (by simp) h [] time
    have hbreak (h : head.hasBreak = true) (time : Nat) :
        (loop.left time).Obeys k (known = some true && !head.hasBreak) :=
      hleft (by rw [h, Bool.not_true, Bool.and_false]) time
    have htaken (hk : known ≠ some false) (time : Nat) :
        ((walk skip choose n (.block loop.body) time).inLoop loop.id
          (Core.optionalRevivals loop.step) (walk skip choose n (.step loop))
          (walk skip choose n (.step loop)) loop.left).Obeys k
          (known = some true && !head.hasBreak) := by
      rw [← hid]
      exact obeys_inLoop hhead (hbody hk n time) hdistinct _ (fun _ => hsteps) hsteps hbreak
    refine ⟨fun again time => ?_, fun time => ?_⟩
    · rcases hknown with ⟨hnone, hk⟩ | ⟨test, hsome, hk⟩
      · simp only [walk, hnone]
        exact htaken (by simp [hk]) time
      · simp only [walk, hsome]
        refine obeys_decide (fun ht => htaken (hk ▸ ht)) (fun ht t => ?_) time
        refine Core.Walk.Obeys.after (hleft ?_ t) (by split <;> simp)
        rw [hk, decide_eq_false ht, Bool.false_and]
    · simp only [walk]
      rw [← hid]
      exact obeys_inLoop hhead (hstep n time) hdistinct _ (fun _ => htest true) hsteps hbreak

end

omit hs in
theorem obeys_optionalStmt {stmt : Option Surface.Stmt} {out : Option Core.Stmt}
    (h : optionalStmt ask scope stmt c = .ok out d) (hc : Live c) (n time : Nat) :
    (walk skip choose n (.optional out) time).Obeys d.here (ended c.here d.here) := by
  cases n with
  | zero => exact Core.Walk.obeys_cut time
  | succ n =>
    cases stmt with
    | none =>
      cases h
      exact Core.Walk.obeys_falls List.not_mem_nil (ended_eq_false rfl) [] time
    | some stmt =>
      obtain ⟨s, hstmt, rfl⟩ := optionalStmt_some_eq_ok h
      obtain ⟨hreached, hobeys⟩ := hg.stmt hstmt hc
      exact obeys_stmt hreached (hobeys skip choose) n time

omit hs hg in
theorem here_header (hc : Live c) : (header c).here = c.here.openBlock := by
  obtain ⟨f, hf⟩ := Option.isSome_iff_exists.mp hc.frame
  unfold header Context.reframe Context.here
  rw [hf]
  rfl

omit hs hg in
theorem live_header (hc : Live c) : Live (header c) := by
  have hcount : Live { c with loopCount := c.loopCount + 1 } :=
    ⟨hc.frame, hc.reached, hc.blocks, fun loop hloop => Nat.le_succ_of_le (hc.numbered loop hloop),
      hc.distinct⟩
  exact hcount.openBlock

/-- The points of a loop that is checked in the block of its header. -/
structure LiveLoop {id : LoopId} {form : LoopForm} (steps : LoopSteps ask id form scope c d) :
    Prop where
  entered : Live steps.entered
  inside : Live (steps.entered.reframe (form.enter id))
  tested : Live steps.tested
  behind : Live steps.behind
  done : Live d
  head : ∃ head tail, d.here.loops = head :: tail ∧ head.id = id ∧
    head.bodyDepth = steps.entered.here.height ∧
    List.Forall₂ LoopFrame.Grows steps.entered.here.loops tail

omit hg in
theorem liveLoop {form : LoopForm} (hc : Live c)
    (steps : LoopSteps ask ⟨c.loopCount + 1⟩ form scope (header c) d) : LiveLoop steps := by
  have hinit := advances_optionalStmt hs steps.hinit
  have hentered := (live_header hc).steps hinit
  have hids : ∀ loop ∈ steps.entered.here.loops, loop.id.index < c.loopCount + 1 := by
    intro loop hloop
    have hid : loop.id ∈ (header c).here.loops.map (·.id) := by
      rw [← Frame.loops_ids (hinit.here (.refl _)).loops]
      exact List.mem_map_of_mem hloop
    rw [here_header hc] at hid
    obtain ⟨loop', hloop', hsame⟩ := List.mem_map.mp hid
    rw [← hsame]
    exact Nat.lt_succ_of_le (hc.numbered loop' hloop')
  have hinside := hentered.enter hids hinit.loopCount form
  have htested := hinside.steps (rests_loopCondition hs steps.hcondition).advances
  have hbehind := htested.steps (rests_checkArm hs steps.hbody).advances
  refine ⟨hentered, hinside, htested, hbehind, hbehind.steps (advances_optionalStmt hs steps.hstep), ?_⟩
  have hloops := ((advances_iteration hs steps).here (.refl _)).loops
  rw [hentered.here_reframe] at hloops
  unfold LoopForm.enter at hloops
  generalize d.here.loops = ls at hloops ⊢
  cases hloops with
  | cons hgrows hrest => exact ⟨_, _, rfl, hgrows.id, hgrows.bodyDepth, hrest⟩

theorem obeys_loopStmt {form : LoopForm} {kind : Core.StmtKind}
    (h : loopStmt ask form scope c = .ok kind d) (hc : Live c) (n time : Nat) :
    (walk skip choose n (.kind kind) time).Obeys d.here (ended c.here d.here) := by
  obtain ⟨c₁, c₂, steps, hsettle, hd, rfl⟩ := loopStmt_eq_ok h
  have hlive := liveLoop hs hc steps
  obtain ⟨head, tail, hhead, hid, -, htail⟩ := hlive.head
  have hk : c₁.here.loops = head :: (leaveLoop c₁.here).loops := by
    rw [leaveLoop, hhead]
    rfl
  have hleft : isLeft c₁.here = head.hasBreak := by
    rw [isLeft, hhead]
    rfl
  have htail' : List.Forall₂ LoopFrame.Grows steps.entered.here.loops (leaveLoop c₁.here).loops := by
    rw [leaveLoop, hhead]
    exact htail
  have hsettled := advances_settleMoves hsettle
  have hloops : List.Forall₂ LoopFrame.Grows (leaveLoop c₁.here).loops c₂.here.loops := by
    have hloops := (hsettled.here (.refl _)).loops
    rwa [hlive.done.here_reframe] at hloops
  have hrests := (rests_loop hs steps).transRests hsettled
  have hc₂ := hc.steps hrests.advances
  have htop := (hrests.here (.refl _)).top.terminated
  have hbody (hknown : steps.known ≠ some false) (n time : Nat) :
      (walk skip choose n (.block steps.body) time).Obeys c₁.here steps.outcome.terminated := by
    have harm := steps.hbody
    rw [decide_eq_false hknown] at harm
    exact (obeys_checkArm hg harm hlive.tested n time).mono
      ((advances_optionalStmt hs steps.hstep).here (.refl _)).loops fun he => he
  have hforever (n time : Nat) :
      (walk skip choose n (.test ⟨⟨c.loopCount + 1⟩, steps.condition, steps.step, steps.body,
        endDrops c₁.here⟩ false) time).Obeys (leaveLoop c₁.here)
        (steps.known = some true && !head.hasBreak) :=
    (obeys_loop hk hid hlive.done.distinct (loopCondition_known steps.hcondition) hbody
      (obeys_optionalStmt hg steps.hstep hlive.behind) n).1 false time
  have hd' : d.here.loops = c₂.here.loops ∧
      (ended c.here d.here = true → (steps.known = some true && !head.hasBreak) = true) := by
    rw [hd, hleft]
    split
    · rename_i hf
      rw [hc₂.here_reframe, Frame.modifyTop_loops]
      exact ⟨rfl, fun _ => hf⟩
    · refine ⟨rfl, fun he => ?_⟩
      rw [ended_eq_false htop] at he
      cases he
  cases n with
  | zero => exact Core.Walk.obeys_cut time
  | succ n =>
    have hinit : (walk skip choose n (.optional steps.init) time).Obeys steps.entered.here
        (ended (header c).here steps.entered.here) :=
      obeys_optionalStmt hg steps.hinit (live_header hc) n time
    refine ((hinit.andThen htail' _ fun _ => hforever n).within _).mono ?_ hd'.2
    rw [hd'.1]
    exact hloops

theorem obeys_checkStmt {s : Surface.Stmt} {out : Core.Stmt}
    (h : checkStmt ask s scope c = .ok out d) (hc : Live c) :
    out.unreachable = false ∧ ∀ skip choose n time,
      (walk skip choose n (.kind out.kind) time).Obeys d.here (ended c.here d.here) := by
  obtain ⟨kind, hkind, rfl⟩ := checkStmt_eq_ok h
  refine ⟨rfl, fun skip choose n time => ?_⟩
  refine stmtKind_elim hkind ?_ ?_ ?_ ?_ ?_ ?_ ?_ ?_
  · exact fun _ _ h => obeys_declStmt hs h hc n time
  · exact fun _ _ _ _ h => obeys_assignStmt hs h hc n time
  · exact fun _ _ h => obeys_exprStmt hs h n time
  · exact fun _ _ h => obeys_returnStmt h n time
  · exact fun _ _ _ h => obeys_jumpStmt h hc n time
  · exact fun _ _ _ h => obeys_condStmt hs hg h hc n time
  · exact fun _ _ h => obeys_loopStmt hs hg h hc n time
  · exact fun _ _ h => obeys_scopeStmt hs hg h hc n time

theorem Guided.step : Guided (step ask) where
  stmt h := obeys_checkStmt hs hg h
  block h hc _ _ := obeys_checkBlock hs hg h hc

end

/-- Walks through what is accepted go where checking has found control to go. -/
theorem guided_answerTo (n : Nat) : Guided (answerTo n) := by
  induction n with
  | zero =>
    refine ⟨?_, ?_⟩
    · intro s scope c d out h
      cases h
    · intro b scope c d out h
      cases h
  | succ n ih => exact ih.step (steady_answerTo n)

theorem IsEntering.live {returns : Ty} (hc : IsEntering returns c) : Live c := by
  obtain ⟨f, hframe, hf⟩ := hc
  obtain ⟨ids, hblocks, -⟩ := hf.blocks
  have hhere : c.here = f := by
    rw [Context.here, hframe]
    rfl
  refine ⟨by rw [hframe]; rfl, ?_, ?_, ?_, ?_⟩
  · rw [hhere]
    exact hf.unreachable
  · rw [hhere, hblocks]
    exact List.cons_ne_nil _ _
  · rw [hhere, hf.loops]
    exact fun loop hloop => absurd hloop List.not_mem_nil
  · rw [hhere, hf.loops]
    exact List.nodup_nil

theorem obeys_ret {drops : List LocalId} {span : Span} {g : Frame} {e : Bool} (n time : Nat) :
    (walk skip choose n (.stmt (.mk (.ret none drops) span false)) time).Obeys g e := by
  refine obeys_stmt rfl (fun n time => ?_) n time
  cases n with
  | zero => exact Core.Walk.obeys_cut time
  | succ n => exact obeys_ending _ (by simp) (.inr rfl) time

/-- A walk through a body that is not cut off returns. -/
theorem obeys_checkTypedBody (hs : Steady ask) (hg : Guided ask) {id : GlobalId}
    {decl : Surface.FnDecl} {owner : Option StructId} {display : String} {params : List Ty}
    {returns : Ty} {out : Body}
    (h : checkTypedBody ask id decl owner display scope params returns c = .ok out d) (n : Nat) :
    .dead ∉ (out.block.walk skip choose n).events ∧
      ((out.block.walk skip choose n).exit = .cut ∨
        (out.block.walk skip choose n).exit = .returns) := by
  obtain ⟨steps, rfl⟩ := checkTypedBody_eq_ok h
  obtain ⟨f, hframe, hf⟩ := steps.entering
  have hhere : steps.entered.here = f := by
    rw [Context.here, hframe]
    rfl
  obtain ⟨ids, hblocks, -⟩ := hf.blocks
  have hterminated : steps.entered.here.top.terminated = false := by
    rw [hhere, Frame.top, hblocks]
    rfl
  have hloops : steps.behind.here.loops = [] := by
    have hgrows := ((advances_checkStmts hs steps.hstmts).here (.refl _)).loops
    rw [hhere, hf.loops] at hgrows
    exact List.forall₂_nil_left_iff.mp hgrows
  -- The end of the block is not reached: a `return` stands there unless control left before.
  have hobeys : (steps.body.block.walk skip choose n).Obeys steps.behind.here true := by
    unfold Core.Block.walk
    cases n with
    | zero => exact Core.Walk.obeys_cut 0
    | succ n =>
      have hwalk : (walk skip choose n (.stmts (steps.stmts ++ steps.last)) 0).Obeys
          steps.behind.here true := by
        refine obeys_checkStmts hs hg steps.hstmts (IsEntering.live ⟨f, hframe, hf⟩) hterminated
          (Frame.loops_refl _) (fun hreached n time => ?_) n 0
        obtain ⟨-, span, hlast⟩ := ((finalReturn_eq_ok steps.hlast).resolve_left fun hend =>
          Bool.false_ne_true (hreached.symm.trans hend.1)).2
        rw [hlast]
        cases n with
        | zero => exact Core.Walk.obeys_cut time
        | succ n =>
          exact Core.Walk.Obeys.andThen (obeys_ret n time : Core.Walk.Obeys steps.behind.here true _)
            (Frame.loops_refl _) _ fun h => by cases h
      exact (hwalk.andThen (Frame.loops_refl _) [] fun h => by cases h).within _
  refine ⟨hobeys.live, ?_⟩
  cases hexit : (steps.body.block.walk skip choose n).exit with
  | cut => exact .inl rfl
  | returns => exact .inr rfl
  | falls => exact absurd (hobeys.falls hexit) Bool.noConfusion
  | breaks l =>
    obtain ⟨loop, hloop, -⟩ := hobeys.breaks l hexit
    rw [hloops] at hloop
    cases hloop
  | continues l =>
    obtain ⟨loop, hloop, -⟩ := hobeys.continues l hexit
    rw [hloops] at hloop
    cases hloop

/-- Reachability is sound. Whatever way control takes through an accepted body, it never comes to a
statement that is flagged as unreachable, and it does not fall off the end of the body: either it
goes on forever, however much fuel there is, or it returns. -/
theorem reachability_sound {id : GlobalId} {body : Body} (h : checkBody answer id c = .ok body d)
    (skip : Bool) (choose : Nat → Bool) :
    (∀ n, .dead ∉ (body.block.walk skip choose n).events) ∧
      ((∀ n, (body.block.walk skip choose n).exit = .cut) ∨
        ∃ n, (body.block.walk skip choose n).exit = .returns ∧
          ∀ m, n ≤ m → body.block.walk skip choose m = body.block.walk skip choose n) := by
  obtain ⟨decl, owner, t, params, variadic, returns, c₁, -, -, -, hbody⟩ := checkBody_eq_ok h
  have hn (n : Nat) : .dead ∉ (body.block.walk skip choose n).events ∧
      ((body.block.walk skip choose n).exit = .cut ∨
        (body.block.walk skip choose n).exit = .returns) :=
    obeys_checkTypedBody (steady_answerTo nestingBound) (guided_answerTo nestingBound) hbody n
  refine ⟨fun n => (hn n).1, ?_⟩
  by_cases hcut : ∀ n, (body.block.walk skip choose n).exit = .cut
  · exact .inl hcut
  · obtain ⟨n, hexit⟩ := not_forall.mp hcut
    refine .inr ⟨n, (hn n).2.resolve_left hexit, fun m hm => ?_⟩
    exact (Core.extends_walk skip hm (.block body.block) 0).ended hexit

/-- `fn f(c: bool) { while @out (true) { while (true) { if (c) { break @out; } } c; } }` -/
def escapeModule : Surface.Module :=
  let named (name : String) : Surface.Expr := .mk (.path [⟨name, .null⟩] []) .null
  let always : Surface.Expr := .mk (.bool true) .null
  let leave : Surface.Stmt := .mk (.brk (some ⟨"out", .null⟩)) .null
  let inner : Surface.Block := .mk [.mk (.cond [(named "c", .mk [leave] .null)] none) .null] .null
  let outer : Surface.Block :=
    .mk [.mk (.loop none always inner) .null, .mk (.expr (named "c")) .null] .null
  let f : Surface.FnDecl :=
    { name := ⟨"f", .null⟩, kind := .plain, variadic := false, returns := none, span := .null
      params := [⟨⟨"c", .null⟩, .mk (.named [⟨"bool", .null⟩] []) .null⟩]
      body := some (.mk [.mk (.loop (some ⟨"out", .null⟩) always outer) .null] .null) }
  { file := "escape.own", package := ⟨"escape", .null⟩, imports := []
    items := [⟨.function f, [], .null⟩] }

/-- The statement behind the inner loop is never reached, and the walk on which `c` holds returns. -/
theorem reachability_sound_escape :
    ∃ c body d, checkBody answer ⟨0⟩ c = .ok body d ∧
      (∀ n, .dead ∉ (body.block.walk false (fun _ => true) n).events) ∧
      ∃ n, (body.block.walk false (fun _ => true) n).exit = .returns ∧
        ∀ m, n ≤ m → body.block.walk false (fun _ => true) m =
          body.block.walk false (fun _ => true) n := by
  have hrun : ((do
      checkModules [escapeModule]
      let body ← checkBody answer ⟨0⟩
      return (body.block.walk false (fun _ => true) 20).exit : Check Core.Exit)
      { options := .library }).value? = some .returns := by decide +kernel
  obtain ⟨_, hmodules⟩ := Outcome.value?_eq_some.mp hrun
  obtain ⟨_, c, -, hbody⟩ := Run.bind_eq_ok.mp hmodules
  obtain ⟨body, d, hbody, hexit⟩ := Run.bind_eq_ok.mp hbody
  obtain ⟨hlive, hends⟩ := reachability_sound hbody false fun _ => true
  refine ⟨c, body, d, hbody, hlive, hends.resolve_left fun hcut => ?_⟩
  have hreturns := (Outcome.ok.inj hexit).1
  rw [hcut 20] at hreturns
  cases hreturns

end Check

end OwnLang
