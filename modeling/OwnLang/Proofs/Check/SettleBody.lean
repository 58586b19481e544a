import Mathlib
import OwnLang.Proofs.Check.SettleValue
import OwnLang.Proofs.Check.Frame

/-!
# Bodies that are finished

Checking a statement, a block or a body finishes the entities that it asks for. The parts that are
attempted are no exception: their failure is handed on once their block or loop is closed, so a run that
succeeds has none. By induction on the nesting of queries, all answers finish what they begin
(`Check.settler_answerTo`).
-/

namespace OwnLang

namespace Context

variable {c d : Context}

/-- The types of the locals, what is returned and the receiver are all that a frame mentions. -/
theorem Knows.facts {f g : Frame} (h : c.Knows f) (hfacts : g.facts = f.facts)
    (hreturns : g.returns = f.returns) (hreceiver : g.receiver = f.receiver) : c.Knows g := by
  obtain ⟨hlocals, hknown, hthis⟩ := knows_frame.mp h
  refine knows_frame.mpr ⟨knows_list.mpr fun l hl => ?_, hreturns ▸ hknown, hreceiver ▸ hthis⟩
  have hmem : (l.type, l.constant, l.value) ∈ f.facts := by
    rw [← hfacts]
    exact Array.mem_map.mpr ⟨l, Array.mem_toList_iff.mp hl, rfl⟩
  obtain ⟨l', hl', hsame⟩ := Array.mem_map.mp hmem
  have htype := knows_list.mp hlocals l' (Array.mem_toList_iff.mpr hl')
  have hsameType : l'.type = l.type := congrArg Prod.fst hsame
  rw [knows_local] at htype ⊢
  exact hsameType ▸ htype

theorem Knows.modifyTop {f : Frame} (h : c.Knows f) (change : BlockFrame → BlockFrame) :
    c.Knows (f.modifyTop change) :=
  h.facts (f.facts_modifyTop change) (f.modifyTop_returns change) (f.modifyTop_receiver change)

theorem Knows.declare {f : Frame} (h : c.Knows f) {l : Local} (hl : c.Knows l.type) :
    c.Knows (Check.declare l f) := by
  obtain ⟨hlocals, hreturns, hreceiver⟩ := knows_frame.mp h
  have hpushed : c.Knows { f with locals := f.locals.push l } := by
    refine knows_frame.mpr ⟨?_, hreturns, hreceiver⟩
    rw [Array.toList_push]
    exact knows_append.mpr ⟨hlocals, knows_cons.mpr ⟨knows_local.mpr hl, knows_nil⟩⟩
  exact hpushed.modifyTop _

end Context

namespace Check

open Surface (Ident)

/-- A run that never succeeds. -/
def Fails {α : Type} (x : Check α) : Prop := ∀ c a d, x c ≠ .ok a d

variable {ask : Asker} {c d : Context} {scope : Scope} {α β : Type}

theorem fails_bind {x : Check α} {f : α → Check β} (h : ∀ a, Fails (f a)) : Fails (x >>= f) := by
  intro c b e hrun
  obtain ⟨a, d, -, hb⟩ := Run.bind_eq_ok.mp hrun
  exact h a d b e hb

theorem fails_error_bind {diagnostic : Diagnostic} {f : α → Check β} :
    Fails (Run.ofExcept (.error diagnostic) >>= f) := by
  intro c b e hrun
  cases hrun

variable [Mentions α] [Mentions β]

/-- A failure that is handed on leaves no success behind. -/
theorem Settling.attempt_bind {x : Check α} {f : Except Diagnostic α → Check β} (hx : Settling c x)
    (hok : ∀ a d, c.Settles d → d.Knows a → Settling d (f (.ok a)))
    (herror : ∀ diagnostic, Fails (f (.error diagnostic))) : Settling c (x.attempt >>= f) := by
  intro hc b e hrun
  obtain ⟨r, d, hattempt, hb⟩ := Run.bind_eq_ok.mp hrun
  obtain ⟨a, ha, rfl⟩ | ⟨diagnostic, -, rfl⟩ := Run.attempt_eq_ok.mp hattempt
  · obtain ⟨hcd, hd, hknown⟩ := hx hc ha
    obtain ⟨hde, he, hresult⟩ := hok a d hcd hknown hd hb
    exact ⟨hcd.trans hde, he, hresult⟩
  · exact absurd hb (herror diagnostic d b e)

theorem settling_modify {change : Context → Context} (hchange : c.Alike (change c))
    (hframe : c.Coherent → (change c).Knows (change c).frame) : Settling c (modify change) := by
  intro hc _ d hrun
  cases hrun
  exact ⟨hchange.settles, hchange.coherent hc (hframe hc), Context.knows_plain _⟩

theorem Settling.reframe {x : Check α} {change : Frame → Frame} (hx : Settling c x)
    (hchange : ∀ d f, Context.Knows d f → d.Knows (change f)) :
    Settling c (x.andFinally fun d => { d with frame := d.frame.map change }) := by
  intro hc a e hrun
  obtain ⟨d, ha, rfl⟩ := Run.andFinally_eq_ok.mp hrun
  obtain ⟨hcd, hd, hknown⟩ := hx hc ha
  obtain ⟨hde, he⟩ := settles_reframe hd (hchange d)
  exact ⟨hcd.trans hde, he, hde.knows hknown⟩

/-! ## Blocks -/

theorem settling_modifyTop {change : BlockFrame → BlockFrame} :
    Settling c (modifyFrame (·.modifyTop change)) :=
  settling_modifyFrame fun _ hf => hf.modifyTop change

theorem settling_openBlock : Settling c (modifyFrame (·.openBlock)) :=
  settling_modifyFrame fun _ hf => hf.facts (by rfl) (by rfl) (by rfl)

theorem settling_isUnreachable : Settling c isUnreachable :=
  settling_frame_bind fun _ => settling_pure (Context.knows_plain _)

theorem settling_warnUnreachable {stmts : List Surface.Stmt} :
    Settling c (warnUnreachable stmts) := by
  unfold warnUnreachable
  split
  · refine settling_isUnreachable.bind fun dead d _ _ => ?_
    split
    · exact settling_modify ⟨rfl, rfl, rfl, rfl, rfl, rfl, rfl, rfl, rfl, rfl⟩ fun hd => hd.closed.frame
    · exact settling_pure (Context.knows_plain _)
  · exact settling_pure (Context.knows_plain _)

theorem settling_enterUnreachable : Settling c enterUnreachable :=
  settling_modifyFrame fun _ hf => hf.facts (by rfl) (by rfl) (by rfl)

theorem settling_closeBlock : Settling c closeBlock :=
  settling_frame_bind fun _ => (settling_modifyFrame fun _ hf => hf.facts (by rfl) (by rfl) (by rfl)).bind
    fun _ _ _ _ => settling_frame_bind fun _ => settling_pure (Context.knows_pair.mpr
      ⟨Context.knows_list.mpr fun _ _ => Context.knows_plain _, Context.knows_plain _⟩)

theorem settling_settleMoves {block : BlockFrame} : Settling c (settleMoves block) := by
  unfold settleMoves
  split
  · exact settling_pure (Context.knows_plain _)
  · refine settling_frame_bind fun _ => ?_
    dsimp only
    split
    · split
      · exact settling_fail _
      · exact settling_pure (Context.knows_plain _)
    · exact settling_modifyTop

section

variable (h : Settler ask)

include h

theorem settling_stmt {s : Surface.Stmt} (hscope : c.Knows scope) :
    Settling c (ask (.stmt s scope) : Check Core.Stmt) := h.answers hscope

theorem settling_block {b : Surface.Block} (hscope : c.Knows scope) :
    Settling c (ask (.block b scope) : Check (Core.Block × BlockFrame)) := h.answers hscope

theorem settling_unreachableStmts {stmts : List Surface.Stmt} (hscope : c.Knows scope) :
    Settling c (unreachableStmts ask scope stmts) := by
  induction stmts generalizing c with
  | nil => exact settling_pure Context.knows_nil
  | cons stmt rest ih =>
    exact (settling_stmt h hscope).bind fun checked d hd hchecked => (ih (hd.knows hscope)).bind
      fun more e he hmore => settling_pure (Context.knows_cons.mpr
        ⟨Context.knows_flagged.mpr (he.knows hchecked), hmore⟩)

theorem settling_checkStmts {stmts : List Surface.Stmt} (hscope : c.Knows scope) :
    Settling c (checkStmts ask scope stmts) := by
  induction stmts generalizing c with
  | nil => exact settling_pure Context.knows_nil
  | cons stmt rest ih =>
    unfold checkStmts
    refine settling_frame_bind fun _ => ?_
    split
    · refine settling_warnUnreachable.bind fun _ d hd _ => settling_enterUnreachable.bind
        fun _ e he _ => (settling_unreachableStmts h ((hd.trans he).knows hscope)).bind
          fun checked f _ hchecked => ?_
      exact (settling_modifyFrame fun _ hframe => hframe.facts (by rfl) (by rfl) (by rfl)).bind
        fun _ g hg _ => settling_pure (hg.knows hchecked)
    · refine (settling_stmt h hscope).bind fun checked d hd hchecked =>
        settling_isUnreachable.bind fun dead e he _ => ?_
      exact (ih ((hd.trans he).knows hscope)).bind fun more f hf hmore =>
        settling_pure (Context.knows_cons.mpr
          ⟨Context.knows_flagged.mpr ((he.trans hf).knows hchecked), hmore⟩)

theorem settling_checkBlock {block : Surface.Block} (hscope : c.Knows scope) :
    Settling c (checkBlock ask block scope) := by
  refine settling_openBlock.bind fun _ d hd _ => (settling_checkStmts h (hd.knows hscope)).attempt_bind
    (fun stmts e _ hstmts => settling_closeBlock.bind fun closed f hf _ => ?_)
    fun _ => fails_bind fun _ => fails_error_bind
  refine .bind (α := List Core.Stmt) (settling_pure (hf.knows hstmts)) fun stmts g _ hstmts => ?_
  exact settling_settleMoves.bind fun _ k hk _ => settling_pure (Context.knows_pair.mpr
    ⟨Context.knows_block.mpr (hk.knows hstmts), Context.knows_plain _⟩)

theorem settling_checkArm {block : Surface.Block} {dead : Bool} (hscope : c.Knows scope) :
    Settling c (checkArm ask block dead scope) := by
  unfold checkArm
  split
  · refine settling_warnUnreachable.bind fun _ d hd _ => settling_enterUnreachable.bind
      fun _ e he _ => (settling_block h ((hd.trans he).knows hscope)).reframe fun _ _ hf => ?_
    exact hf.facts (by rfl) (by rfl) (by rfl)
  · exact settling_block h hscope

theorem settling_scopeStmt {block : Surface.Block} (hscope : c.Knows scope) :
    Settling c (scopeStmt ask block scope) :=
  (settling_block h hscope).bind fun _ _ _ hchecked => settling_modifyTop.bind fun _ _ hd _ =>
    settling_pure (Context.knows_scopeStmt.mpr (hd.knows (Context.knows_pair.mp hchecked).1))

/-! ## Branches -/

theorem settling_condition {e : Surface.Expr} (hscope : c.Knows scope) :
    Settling c (ask.valueOf e Shape.bool.plain scope) :=
  settling_value h (Context.knows_some.mpr (Context.knows_of_nil rfl)) hscope

theorem settling_checkBranches {b : Branching} {branches : List (Surface.Expr × Surface.Block)}
    (hscope : c.Knows scope) : Settling c (checkBranches ask scope b branches) := by
  induction branches generalizing c b with
  | nil => exact settling_pure (Context.knows_pair.mpr ⟨Context.knows_nil, Context.knows_plain _⟩)
  | cons branch rest ih =>
    refine (settling_condition h hscope).bind fun test d hd htest =>
      (settling_checkArm h (hd.knows hscope)).bind fun arm e he harm =>
        (ih ((hd.trans he).knows hscope)).bind fun more f hf hmore => settling_pure ?_
    exact Context.knows_pair.mpr ⟨Context.knows_cons.mpr ⟨Context.knows_pair.mpr
      ⟨(he.trans hf).knows htest, hf.knows (Context.knows_pair.mp harm).1⟩,
      (Context.knows_pair.mp hmore).1⟩, Context.knows_plain _⟩

theorem settling_checkOtherwise {b : Branching} {otherwise : Option Surface.Block}
    (hscope : c.Knows scope) : Settling c (checkOtherwise ask scope b otherwise) := by
  cases otherwise with
  | none => exact settling_pure (Context.knows_pair.mpr ⟨Context.knows_none, Context.knows_plain _⟩)
  | some body =>
    refine (settling_checkArm h hscope).bind fun arm d _ harm => settling_pure ?_
    exact Context.knows_pair.mpr
      ⟨Context.knows_some.mpr (Context.knows_pair.mp harm).1, Context.knows_plain _⟩

theorem settling_condStmt {branches : List (Surface.Expr × Surface.Block)}
    {otherwise : Option Surface.Block} (hscope : c.Knows scope) :
    Settling c (condStmt ask branches otherwise scope) :=
  (settling_checkBranches h hscope).bind fun _ _ hd hchecked =>
    (settling_checkOtherwise h (hd.knows hscope)).bind fun _ _ he hlast =>
      settling_modifyTop.bind fun _ _ hf _ => settling_pure (Context.knows_cond.mpr
        ⟨(he.trans hf).knows (Context.knows_pair.mp hchecked).1,
          hf.knows (Context.knows_pair.mp hlast).1⟩)

/-! ## Loops and jumps -/

theorem settling_optionalStmt {stmt : Option Surface.Stmt} (hscope : c.Knows scope) :
    Settling c (optionalStmt ask scope stmt) := by
  cases stmt with
  | none => exact settling_pure Context.knows_none
  | some stmt => exact (settling_stmt h hscope).map fun _ _ _ hs => Context.knows_some.mpr hs

theorem settling_loopCondition {condition : Option Surface.Expr} (hscope : c.Knows scope) :
    Settling c (loopCondition ask scope condition) := by
  have hknown (d : Context) (known : Option Bool) : d.Knows known :=
    Context.knows_option.mpr fun _ _ => Context.knows_plain _
  cases condition with
  | none => exact settling_pure (Context.knows_pair.mpr ⟨Context.knows_none, hknown c _⟩)
  | some e => exact (settling_condition h hscope).bind fun _ d _ htest =>
      settling_pure (Context.knows_pair.mpr ⟨Context.knows_some.mpr htest, hknown d _⟩)

theorem settling_checkIteration {form : LoopForm} (hscope : c.Knows scope) :
    Settling c (checkIteration ask form scope) := by
  refine (settling_loopCondition h hscope).bind fun condition d hd hcondition =>
    (settling_checkArm h (hd.knows hscope)).bind fun body e he hbody =>
      (settling_optionalStmt h ((hd.trans he).knows hscope)).bind fun step f hf hstep =>
        settling_pure ?_
  exact Context.knows_checkedLoop.mpr ⟨Context.knows_none,
    (he.trans hf).knows (Context.knows_pair.mp hcondition).1, hstep,
    hf.knows (Context.knows_pair.mp hbody).1⟩

omit h in
theorem settling_closeLoop : Settling c closeLoop :=
  settling_frame_bind fun _ => (settling_modifyFrame fun _ hf => hf.facts (by rfl) (by rfl) (by rfl)).bind
    fun _ _ _ _ => settling_pure (Context.knows_plain _)

theorem settling_checkLoopParts {id : LoopId} {form : LoopForm} (hscope : c.Knows scope) :
    Settling c (checkLoopParts ask id form scope) := by
  refine (settling_optionalStmt h hscope).bind fun init d hd hinit =>
    (settling_modifyFrame fun _ hf => hf.facts (by rfl) (by rfl) (by rfl)).bind fun _ e he _ => ?_
  refine (settling_checkIteration h ((hd.trans he).knows hscope)).attempt_bind
    (fun loop f hf hloop => settling_closeLoop.bind fun left g hg _ => ?_)
    fun _ => fails_bind fun _ => fails_error_bind
  refine settling_pure (Context.knows_pair.mpr ⟨?_, Context.knows_plain _⟩)
  obtain ⟨-, hcondition, hstep, hbody⟩ := Context.knows_checkedLoop.mp (hg.knows hloop)
  exact Context.knows_checkedLoop.mpr
    ⟨(he.trans (hf.trans hg)).knows hinit, hcondition, hstep, hbody⟩

omit h in
theorem settling_newLoop : Settling c newLoop :=
  (settling_modify ⟨rfl, rfl, rfl, rfl, rfl, rfl, rfl, rfl, rfl, rfl⟩ fun hc => hc.closed.frame).bind
    fun _ _ _ _ => settling_get_bind fun _ => settling_pure (Context.knows_plain _)

theorem settling_loopStmt {form : LoopForm} (hscope : c.Knows scope) :
    Settling c (loopStmt ask form scope) := by
  refine settling_newLoop.bind fun id d hd _ => settling_openBlock.bind fun _ e he _ => ?_
  refine (settling_checkLoopParts h ((hd.trans he).knows hscope)).attempt_bind
    (fun parts f _ hparts => settling_closeBlock.bind fun closed g hg _ => ?_)
    fun _ => fails_bind fun _ => fails_error_bind
  refine .bind (α := CheckedLoop × Bool) (settling_pure (hg.knows hparts)) fun _ k hk hparts => ?_
  refine settling_settleMoves.bind fun _ l hl _ => ?_
  have hloop := Context.knows_checkedLoop.mp (hl.knows (Context.knows_pair.mp hparts).1)
  dsimp only
  split
  · exact settling_modifyTop.bind fun _ _ hm _ =>
      settling_pure (hm.knows (Context.knows_loop.mpr hloop))
  · exact settling_pure (Context.knows_loop.mpr hloop)

omit h in
theorem knows_carryMoves {f g : Frame} {jump : Jump} {loop : LoopFrame} (hf : c.Knows f)
    (hcarried : carryMoves f jump loop = .ok g) : c.Knows g := by
  have hkept : g.returns = f.returns ∧ g.receiver = f.receiver := by
    unfold carryMoves at hcarried
    dsimp only at hcarried
    split at hcarried <;> cases hcarried
    · exact ⟨rfl, rfl⟩
    · split <;> exact ⟨rfl, rfl⟩
  exact hf.facts (carryMoves_facts hcarried) hkept.1 hkept.2

omit h in
theorem settling_jumpStmt {jump : Jump} {label : Option Ident} {span : Span} :
    Settling c (jumpStmt jump label span) := by
  intro hc kind d hrun
  obtain ⟨i, loop, e, -, hcarry, rfl, rfl⟩ := jumpStmt_eq_ok hrun
  have hcarried : c.Settles e ∧ e.Coherent := by
    obtain ⟨-, carried, hcarried, rfl⟩ | ⟨-, rfl⟩ := hcarry
    · refine settles_reframe hc fun _ _ => knows_carryMoves ?_ hcarried
      unfold jumpLeaves
      split
      · exact hc.here.facts (by rfl) (by rfl) (by rfl)
      · exact hc.here
    · exact ⟨.refl e, hc⟩
  obtain ⟨hleft, hd⟩ := settles_reframe hcarried.2 fun _ hf => hf.modifyTop
    fun b => { b with jumpedTo := some loop.id }
  refine ⟨hcarried.1.trans hleft, hd, ?_⟩
  cases jump
  · exact Context.knows_brk
  · exact Context.knows_cont

/-! ## Statements -/

omit h in
theorem settling_declareLocal {name : Ident} {t : Ty} {constant : Bool} {value : Option Const}
    (ht : c.Knows t) : Settling c (declareLocal name t constant value) := by
  intro hc id d hrun
  obtain ⟨-, rfl⟩ := declareLocal_eq_ok hrun
  refine ⟨(settles_reframe hc ?_).1, (settles_reframe hc ?_).2, Context.knows_plain _⟩ <;>
    exact fun _ hf => hf.declare ht

theorem settling_declStmt {decl : Surface.VarDecl} (hscope : c.Knows scope) :
    Settling c (declStmt ask decl scope) := by
  unfold declStmt
  refine (settling_writtenType h _ hscope).bind fun declared d hd hdeclared => ?_
  extract_lets +onlyGivenNames missing withValue
  have hvalue (value) (e : Context) (he : d.Settles e) (hknown : e.Knows value) :
      Settling e (withValue value) := by
    dsimp -zeta only [withValue]
    extract_lets +onlyGivenNames known withType
    have htype (t : Ty) (ht : e.Knows t) : Settling e (withType t) := by
      refine (settling_requireValueType t _).bind fun _ f hf _ => (settling_complete h t _).bind
        fun _ g hg _ => ?_
      have hef := hf.trans hg
      extract_lets +onlyGivenNames declare
      have hdeclare (k : Context) (hk : g.Settles k) : Settling k (declare ⟨⟩) :=
        (settling_declareLocal ((hef.trans hk).knows ht)).bind fun id l hl _ =>
          settling_pure (Context.knows_declare.mpr (((hef.trans hk).trans hl).knows hknown))
      split
      · exact settling_consume.bind fun _ k hk _ => hdeclare k hk
      · exact .unless (hdeclare g (.refl g))
    split
    · exact htype _ (he.knows (Context.knows_some.mp hdeclared))
    · exact htype _ (Context.knows_some.mp hknown).type
    · exact settling_reject_bind _ _ _
  split
  · exact hvalue _ d (.refl d) Context.knows_none
  · refine .bind ?_ fun value e he hknown => hvalue value e he hknown
    exact (settling_value h hdeclared (hd.knows hscope)).map fun _ _ _ hv =>
      Context.knows_some.mpr hv

theorem settling_updatedValue {place : Core.Place} {target value : Surface.Expr}
    {op : Surface.ArithmeticOp} (hplace : c.Knows place) (hscope : c.Knows scope) :
    Settling c (updatedValue ask place target op value scope) := by
  refine (settling_value h (Context.knows_some.mpr hplace.placeType) hscope).bind
    fun right d hd hright => .unless (settling_pure ?_)
  have hplace := hd.knows hplace
  exact Context.knows_computed.mpr
    ⟨Context.knows_binary.mpr ⟨hplace.read, hright⟩, hplace.placeType⟩

omit h in
theorem settling_takeOwnership {place : Core.Place} {span : Span} :
    Settling c (takeOwnership place span) := by
  unfold takeOwnership
  split
  · exact settling_pure (Context.knows_plain _)
  · split
    · refine settling_frame_bind fun _ => (settling_modifyFrame fun f hf => ?_).bind fun _ _ _ _ =>
        settling_pure (Context.knows_plain _)
      refine (hf.modifyTop _).facts (Frame.facts_modifyLocal _ _ _) (by rfl) (by rfl)
    · exact settling_reject _ _

theorem settling_assignStmt {target value : Surface.Expr} {op : Option Surface.ArithmeticOp}
    (hscope : c.Knows scope) : Settling c (assignStmt ask target op value scope) := by
  refine (settling_requirePlace h hscope).bind fun place d hd hplace => .unless ?_
  extract_lets +onlyGivenNames store
  have hstore (source) (e : Context) (he : d.Settles e) (hsource : e.Knows source) :
      Settling e (store source) :=
    settling_consume.bind fun _ f hf _ => settling_takeOwnership.bind fun _ g hg _ =>
      settling_pure (Context.knows_assign.mpr
        ⟨(he.trans (hf.trans hg)).knows hplace, (hf.trans hg).knows hsource⟩)
  split
  · exact (settling_value h (Context.knows_some.mpr hplace.placeType) (hd.knows hscope)).bind hstore
  · exact (settling_updatedValue h hplace (hd.knows hscope)).bind hstore

theorem settling_exprStmt {e : Surface.Expr} (hscope : c.Knows scope) :
    Settling c (exprStmt ask e scope) :=
  (settling_rawValue h Context.knows_none hscope).bind fun _ _ _ hvalue =>
    settling_pure (Context.knows_exprStmt.mpr hvalue)

theorem settling_returnedValue {value : Option Surface.Expr} {returns : Ty} {span : Span}
    (hreturns : c.Knows returns) (hscope : c.Knows scope) :
    Settling c (returnedValue ask value returns span scope) := by
  unfold returnedValue
  split
  · exact settling_pure Context.knows_none
  · exact settling_reject _ _
  · exact (settling_rawValue h Context.knows_none hscope).bind fun _ _ _ hvalue =>
      .unless (settling_pure (Context.knows_some.mpr hvalue))
  · exact (settling_value h (Context.knows_some.mpr hreturns) hscope).bind fun _ _ _ hvalue =>
      settling_consume.bind fun _ _ hd _ => settling_pure (Context.knows_some.mpr (hd.knows hvalue))

theorem settling_returnStmt {value : Option Surface.Expr} {span : Span} (hscope : c.Knows scope) :
    Settling c (returnStmt ask value span scope) :=
  settling_frame_bind fun hhere =>
    (settling_returnedValue h (Context.knows_frame.mp hhere).2.1 hscope).bind fun _ _ _ hvalue =>
      settling_frame_bind fun _ => settling_modifyTop.bind fun _ _ hd _ =>
        settling_pure (Context.knows_ret.mpr (hd.knows hvalue))

theorem settling_checkStmt {s : Surface.Stmt} (hscope : c.Knows scope) :
    Settling c (checkStmt ask s scope) := by
  refine Settling.bind (α := Core.StmtKind) ?_ fun _ _ _ hkind =>
    settling_pure (Context.knows_stmt.mpr hkind)
  unfold stmtKind
  split
  · exact settling_declStmt h hscope
  · exact settling_assignStmt h hscope
  · exact settling_exprStmt h hscope
  · exact settling_returnStmt h hscope
  · exact settling_jumpStmt
  · exact settling_jumpStmt
  · exact settling_condStmt h hscope
  · exact settling_loopStmt h hscope
  · exact settling_loopStmt h hscope
  · exact settling_scopeStmt h hscope

/-! ## Queries -/

/-- One step of nesting. -/
theorem Settler.step : Settler (step ask) where
  answers := by
    intro q c hq
    cases q with
    | value e expected scope =>
      obtain ⟨hexpected, hscope⟩ := Context.knows_queryValue.mp hq
      exact settling_checkValue h hexpected hscope
    | denoted e write scope => exact settling_checkDenoted h hq
    | type t scope => exact settling_resolveType h hq
    | typeAlias id usedAt =>
      intro hc t d hrun
      obtain ⟨hsettles, hd, ht, -⟩ := settles_resolveAlias h hc hrun
      exact ⟨hsettles, hd, ht⟩
    | layout id usedAt =>
      intro hc _ d hrun
      obtain ⟨hsettles, hd, -⟩ := settles_resolveStruct h hc hrun
      exact ⟨hsettles, hd, Context.knows_plain _⟩
    | global id usedAt => exact settling_resolveGlobal h
    | stmt s scope => exact settling_checkStmt h hq
    | block b scope => exact settling_checkBlock h hq
  layout hc hrun := (settles_resolveStruct h hc hrun).2.2
  typeAlias hc hid hrun := (settles_resolveAlias h hc hrun).2.2.2 hid

end

/-- All answers finish what they begin. -/
theorem settler_answerTo (n : Nat) : Settler (answerTo n) := by
  induction n with
  | zero => exact ⟨fun _ _ _ _ hrun => by (cases hrun), fun _ hrun => by (cases hrun),
      fun _ _ hrun => by (cases hrun)⟩
  | succ n ih => exact ih.step

/-! ## Bodies -/

section

variable (h : Settler ask)

include h

theorem settling_completeParams {params : List (Ty × Surface.Param)} :
    Settling c (completeParams ask params) := by
  induction params generalizing c with
  | nil => exact settling_pure (Context.knows_plain _)
  | cons param rest ih => exact (settling_complete h _ _).bind fun _ _ _ _ => ih

omit h in
theorem settling_declareParams {params : List (Surface.Param × Ty)}
    (hparams : ∀ param ∈ params, c.Knows param.2) : Settling c (declareParams params) := by
  induction params generalizing c with
  | nil => exact settling_pure (Context.knows_nil (α := LocalId))
  | cons param rest ih =>
    refine (settling_declareLocal (hparams param List.mem_cons_self)).bind fun id d hd _ => ?_
    exact (ih fun other hother => hd.knows (hparams other (List.mem_cons_of_mem _ hother))).bind
      fun _ _ _ _ => settling_pure (Context.knows_list.mpr fun _ _ => Context.knows_plain _)

omit h in
theorem settling_declareReceiver {decl : Surface.FnDecl} {owner : Option StructId}
    {params : List Ty} (howner : c.Knows owner) (hparams : c.Knows params) :
    Settling c (declareReceiver decl owner params) := by
  have hids (d : Context) (ids : List LocalId) : d.Knows ids :=
    Context.knows_list.mpr fun _ _ => Context.knows_plain _
  unfold declareReceiver
  split
  · obtain ⟨hthis, hrest⟩ := Context.knows_cons.mp hparams
    split
    · refine (settling_declareLocal hthis).bind fun id d hd _ =>
        (settling_modifyFrame fun f hf => ?_).bind fun _ e he _ => settling_pure
          (Context.knows_pair.mpr ⟨hids e _, (hd.trans he).knows hrest⟩)
      obtain ⟨hlocals, hreturns, -⟩ := Context.knows_frame.mp hf
      exact Context.knows_frame.mpr ⟨hlocals, hreturns, Context.knows_some.mpr
        (Context.knows_pair.mpr ⟨Context.knows_plain _, hd.knows (Context.knows_some.mp howner)⟩)⟩
    · exact settling_pure (Context.knows_pair.mpr ⟨hids c _, hparams⟩)
  · exact settling_pure (Context.knows_pair.mpr ⟨hids c _, hparams⟩)

theorem settling_bodyParts {decl : Surface.FnDecl} {owner : Option StructId} {params : List Ty}
    (howner : c.Knows owner) (hparams : c.Knows params) (hscope : c.Knows scope) :
    Settling c (bodyParts ask decl owner params scope) := by
  have hids (d : Context) (ids : List LocalId) : d.Knows ids :=
    Context.knows_list.mpr fun _ _ => Context.knows_plain _
  refine (settling_declareReceiver howner hparams).bind fun receiver d hd hreceiver => ?_
  refine (settling_declareParams fun param hparam => Context.knows_list.mp
    (Context.knows_pair.mp hreceiver).2 _ (List.of_mem_zip hparam).2).bind fun ids e he _ => ?_
  dsimp only
  split
  · exact (settling_checkStmts h ((hd.trans he).knows hscope)).bind fun stmts f _ hstmts =>
      settling_pure (Context.knows_pair.mpr ⟨hids f _, hstmts⟩)
  · exact settling_pure (Context.knows_pair.mpr ⟨hids e _, Context.knows_nil⟩)

omit h in
theorem knows_finalReturn {f : Frame} {decl : Surface.FnDecl} {display : String}
    {last : List Core.Stmt} (hlast : finalReturn f decl display = .ok last) : c.Knows last := by
  unfold finalReturn at hlast
  split at hlast
  · cases hlast
    exact Context.knows_nil
  · split at hlast
    · cases hlast
    · cases hlast
      exact Context.knows_cons.mpr ⟨Context.knows_stmt.mpr (Context.knows_ret.mpr Context.knows_none),
        Context.knows_nil⟩

theorem settling_checkTypedBody {id : GlobalId} {decl : Surface.FnDecl} {owner : Option StructId}
    {display : String} {params : List Ty} {returns : Ty} (howner : c.Knows owner)
    (hscope : c.Knows scope) (hparams : c.Knows params) (hreturns : c.Knows returns) :
    Settling c (checkTypedBody ask id decl owner display scope params returns) := by
  refine (settling_completeParams h).bind fun _ d hd _ => ?_
  refine (settling_modify ⟨rfl, rfl, rfl, rfl, rfl, rfl, rfl, rfl, rfl, rfl⟩ fun _ => ?_).bind
    fun _ e he _ => ?_
  · exact Context.knows_some.mpr (Context.knows_frame.mpr
      ⟨Context.knows_nil, hd.knows hreturns, Context.knows_none⟩)
  · have hce := hd.trans he
    refine (settling_bodyParts h (hce.knows howner) (hce.knows hparams) (hce.knows hscope)).attempt_bind
      (fun parts f hf hparts => settling_frame_bind fun hhere => ?_)
      fun _ => fails_bind fun _ => fails_bind fun _ => fails_error_bind
    refine (settling_modify ⟨rfl, rfl, rfl, rfl, rfl, rfl, rfl, rfl, rfl, rfl⟩
      fun _ => Context.knows_none).bind fun _ g hg _ => ?_
    refine .bind (α := List LocalId × List Core.Stmt) (settling_pure (hg.knows hparts))
      fun parts k hk hparts => ?_
    refine (settling_ofExcept fun last hlast => knows_finalReturn hlast).bind
      fun last l hl hlast => settling_pure ?_
    have hstmts := hl.knows (Context.knows_pair.mp hparts).2
    exact Context.knows_body.mpr ⟨((hg.trans hk).trans hl).knows (Context.knows_frame.mp hhere).1,
      Context.knows_block.mpr (Context.knows_append.mpr ⟨hstmts, hlast⟩),
      (hce.trans (((hf.trans hg).trans hk).trans hl)).knows hreturns⟩

theorem settling_checkBody {id : GlobalId} : Settling c (checkBody ask id) := by
  refine settling_get_bind fun hc => ?_
  obtain ⟨hkind, hscope, -⟩ := Context.knows_globalDef.mp (hc.closed.globals id)
  dsimp only
  split
  · exact settling_reject _ _
  · rename_i decl owner hfunction
    rw [hfunction] at hkind
    refine (settling_global h).bind fun t d hd ht => ?_
    split
    · rename_i hshape
      obtain ⟨hparams, hreturns⟩ := Context.knows_func.mp (ht.shape hshape)
      exact settling_checkTypedBody h (hd.knows hkind) (hd.knows hscope) hparams hreturns
    · exact settling_reject _ _

end

end Check

end OwnLang
