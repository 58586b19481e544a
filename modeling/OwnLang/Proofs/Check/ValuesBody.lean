import Mathlib
import OwnLang.Proofs.Check.Values
import OwnLang.Proofs.Check.Written

/-!
# Bodies of statements that stand

Statements that are checked stand, and so does all that is checked of a program (`valued_checkProgram`).

The macros that print are known by their paths, so it matters who declares them. The standard package
does, and they return nothing there. It is declared ahead of the files of the program. Its name is that of
one package only, and no file can declare a macro again that a package has (`Context.Equipped`). A name
is read as a word, so no other package and name make the same path.
-/

namespace OwnLang

open OwnLang.Core (Values AllStand)

namespace Check

variable {ask : Asker} {scope : Scope} {origin c d : Context}

/-! ## Frames that values do not tell apart -/

theorem Valuing.agrees (hc : Valuing origin c) (h : c.Agrees d) : Valuing origin d :=
  hc.of_eq h.globals h.structs h.macros h.bodies (slotOf_facts h.facts)

theorem Valuing.withFrame (hc : Valuing origin c) {f : Option Frame}
    (hf : ∀ id, ((f.getD default).localAt id).value = none) :
    Valuing origin { c with frame := f } :=
  ⟨hc.toElaborated.of_eq rfl rfl rfl, hc.toTended.of_eq rfl rfl rfl, hc.known.withoutFrame hf⟩

/-- It does not matter for values where control is. -/
theorem Valuing.reframe (hc : Valuing c c) {change : Frame → Frame} (h : Moves change) :
    Valuing (c.reframe change) (c.reframe change) := by
  refine (hc.of_eq (d := c.reframe change) rfl rfl rfl rfl fun id => ?_).self
  have hsame : (slotOf (c.reframe change) id) = slotOf c id := by
    unfold slotOf Context.reframe
    cases c.frame with
    | none => rfl
    | some f => exact congrArg (fun locals : Array Local => locals[id.index]?.getD default) (h.locals f)
  rw [hsame]
  exact ⟨rfl, rfl⟩

/-- A region that no execution reaches is checked like any other. -/
theorem Valuing.region (hc : Valuing c c) (warnings : Array Warning) :
    Valuing ({ c with warnings }.reframe fun f => { f with unreachable := f.unreachable + 1 })
      ({ c with warnings }.reframe fun f => { f with unreachable := f.unreachable + 1 }) := by
  have hwarned : Valuing c { c with warnings } := hc.of_eq rfl rfl rfl rfl fun _ => ⟨rfl, rfl⟩
  exact hwarned.self.reframe ⟨fun _ => rfl, fun _ => rfl⟩

section

variable (hv : Valuer ask)

include hv

theorem valuing_body : FollowingBody (.keeping (Valuing origin)) ask ask where
  toFollowing := valuing_following hv
  everyAnswer q := (hv.keeps origin q).follows
  resembles c d h := ⟨fun hc => hc.agrees h.toAgrees, trivial⟩
  declared decl scope := (preserves_declStmt_of_fits hv.faithful (valuing_following hv)
    (fun _ hc => hc.known.self) (fun _ _ _ _ => valuing_declareLocal) decl scope).follows
  agrees c d h := ⟨fun hc => hc.agrees h, trivial⟩
  bodyOpened c _ _ := ⟨fun hc => hc.withFrame fun id => by simp [Frame.localAt]; rfl, trivial⟩
  bodyClosed c := ⟨fun hc => hc.withFrame fun id => localAt_default id, trivial⟩
  bodyLeft _ := trivial
  param _ _ := (valuing_declareLocal fun _ h => by cases h).follows
  receiver _ _ := (valuing_declareLocal fun _ h => by cases h).follows

theorem Valuer.checked {α : Type} {work : Check α} {a : α} (hc : Valuing c c) (h : work c = .ok a d)
    (hwork : ∀ {C : Course Context}, FollowingBody C ask ask → work.Follows C work) : Valuing d d :=
  ((hwork (valuing_body hv)).preserves (Run.ends_of_ok h) hc).self

theorem Valuer.stmt (hc : Valuing c c) {s : Surface.Stmt} {out : Core.Stmt}
    (h : ask (.stmt s scope) c = .ok out d) : Valuing d d ∧ AllStand out.emitted :=
  ⟨(hv.keeps c _ (Run.ends_of_ok h) hc).self, hv.sound hc h⟩

theorem Valuer.block (hc : Valuing c c) {b : Surface.Block} {out : Core.Block × BlockFrame}
    (h : ask (.block b scope) c = .ok out d) : Valuing d d ∧ AllStand out.1.emitted :=
  ⟨(hv.keeps c _ (Run.ends_of_ok h) hc).self, hv.sound hc h⟩

/-! ## Simple statements -/

omit hv in
/-- A statement that has no others inside. -/
theorem allStand_simple {kind : Core.StmtKind} {span : Span} {dead : Bool}
    (hstands : (Core.Stmt.mk kind span dead).Stands) (hinside : kind.emitted = []) :
    AllStand (Core.Stmt.mk kind span dead).emitted :=
  Core.Stmt.allStand_emitted.mpr ⟨hstands, hinside ▸ Core.allStand_nil⟩

variable {span : Span} {dead : Bool}

theorem allStand_declStmt (hc : Valuing c c) {decl : Surface.VarDecl} {kind : Core.StmtKind}
    (h : declStmt ask decl scope c = .ok kind d) : AllStand (Core.Stmt.mk kind span dead).emitted := by
  obtain ⟨steps, rfl⟩ := declStmt_eq_ok h
  refine allStand_simple ?_ rfl
  show Values (Core.partsOf steps.value.toList)
  rcases steps.hvalue with ⟨-, hnone, -⟩ | ⟨e, v, -, hv', hanswer⟩
  · rw [hnone]
    exact Core.values_nil
  · rw [hv']
    have hannotated := (preserves_writtenType (fun q _ => hv.keeps c q) _ _
      (Run.ends_of_ok steps.htype) hc).self
    exact Core.values_partsOf.mpr fun v' hmem =>
      List.mem_singleton.mp hmem ▸ (ensures_value hv hannotated hanswer).2

theorem allStand_assignStmt (hc : Valuing c c) {target value : Surface.Expr}
    {op : Option Surface.ArithmeticOp} {kind : Core.StmtKind}
    (h : assignStmt ask target op value scope c = .ok kind d) :
    AllStand (Core.Stmt.mk kind span dead).emitted := by
  obtain ⟨steps, rfl⟩ := assignStmt_eq_ok h
  refine allStand_simple (Core.values_append.mpr ?_) rfl
  obtain ⟨hplaced, hplace, -⟩ := ensures_denoted hv hc steps.hplace
  refine ⟨hplace, ?_⟩
  rcases steps.hsource with ⟨-, hanswer⟩ | ⟨o, right, -, hanswer, -, hsource⟩
  · exact (ensures_value hv hplaced hanswer).2
  · rw [hsource]
    exact Core.Expr.values_parts.mpr ⟨Core.Expr.isValue_computed nofun nofun,
      Core.values_append.mpr ⟨values_read hplace, (ensures_value hv hplaced hanswer).2⟩⟩

theorem allStand_exprStmt (hc : Valuing c c) {e : Surface.Expr} {kind : Core.StmtKind}
    (h : exprStmt ask e scope c = .ok kind d) : AllStand (Core.Stmt.mk kind span dead).emitted := by
  obtain ⟨value, hvalue, rfl⟩ := exprStmt_eq_ok h
  exact allStand_simple (ensures_rawValue hv hc hvalue).2 rfl

theorem allStand_returnStmt (hc : Valuing c c) {value : Option Surface.Expr} {at' : Span}
    {kind : Core.StmtKind} (h : returnStmt ask value at' scope c = .ok kind d) :
    AllStand (Core.Stmt.mk kind span dead).emitted := by
  obtain ⟨out, c₁, hout, rfl, -⟩ := returnStmt_eq_ok h
  refine allStand_simple (fun e he => ?_) rfl
  rcases returnedValue_eq_ok hout with ⟨-, -, rfl, -⟩ | ⟨e', v, -, hvalue, -, -, rfl⟩ |
    ⟨e', v, c₂, -, hvalue, -, rfl⟩
  · cases he
  · cases he
    exact (ensures_rawValue hv hc hvalue).2
  · cases he
    exact Core.Expr.stands_of_values (ensures_value hv hc hvalue).2

omit hv in
theorem allStand_jumpStmt {jump : Jump} {label : Option Surface.Ident} {at' : Span}
    {kind : Core.StmtKind} (h : jumpStmt jump label at' c = .ok kind d) :
    AllStand (Core.Stmt.mk kind span dead).emitted := by
  obtain ⟨i, loop, c₁, -, -, rfl, -⟩ := jumpStmt_eq_ok h
  cases jump with
  | brk => exact allStand_simple Core.values_nil rfl
  | cont => exact allStand_simple Core.values_nil rfl

/-! ## Blocks -/

theorem allStand_unreachableStmts (hc : Valuing c c) {stmts : List Surface.Stmt}
    {out : List Core.Stmt} (h : unreachableStmts ask scope stmts c = .ok out d) :
    ∀ s ∈ out, AllStand s.emitted := by
  induction stmts generalizing c out with
  | nil =>
    cases h
    exact nofun
  | cons stmt rest ih =>
    obtain ⟨s, c₁, after, hs, hafter, rfl⟩ := unreachableStmts_cons_eq_ok h
    obtain ⟨hc₁, hstands⟩ := hv.stmt hc hs
    exact List.forall_mem_cons.mpr ⟨Core.Stmt.allStand_flagged hstands true, ih hc₁ hafter⟩

theorem allStand_checkStmts (hc : Valuing c c) {stmts : List Surface.Stmt} {out : List Core.Stmt}
    (h : checkStmts ask scope stmts c = .ok out d) : ∀ s ∈ out, AllStand s.emitted := by
  induction stmts generalizing c out with
  | nil =>
    cases h
    exact nofun
  | cons stmt rest ih =>
    rcases checkStmts_cons_eq_ok h with ⟨-, warnings, c₁, hdead, -, -⟩ | ⟨-, s, c₁, after, hs, hafter, rfl⟩
    · exact allStand_unreachableStmts hv (hc.region warnings) hdead
    · obtain ⟨hc₁, hstands⟩ := hv.stmt hc hs
      exact List.forall_mem_cons.mpr ⟨Core.Stmt.allStand_flagged hstands _, ih hc₁ hafter⟩

theorem allStand_checkBlock (hc : Valuing c c) {block : Surface.Block} {out : Core.Block × BlockFrame}
    (h : checkBlock ask block scope c = .ok out d) : AllStand out.1.emitted := by
  obtain ⟨stmts, c₁, hstmts, -, rfl⟩ := checkBlock_eq_ok h
  exact Core.allStand_emittedStmts (allStand_checkStmts hv (hc.reframe moves_openBlock) hstmts)

theorem allStand_checkArm (hc : Valuing c c) {block : Surface.Block} {unreached : Bool}
    {out : Core.Block × BlockFrame} (h : checkArm ask block unreached scope c = .ok out d) :
    Valuing d d ∧ AllStand out.1.emitted := by
  refine ⟨hv.checked hc h fun hC => follows_checkArm hC.toFollowingFlat _ _ _, ?_⟩
  rcases checkArm_eq_ok h with ⟨-, hblock⟩ | ⟨-, warnings, c₁, hblock, -, -⟩
  · exact (hv.block hc hblock).2
  · exact (hv.block (hc.region warnings) hblock).2

theorem allStand_scopeStmt (hc : Valuing c c) {block : Surface.Block} {kind : Core.StmtKind}
    (h : scopeStmt ask block scope c = .ok kind d) : AllStand (Core.Stmt.mk kind span dead).emitted := by
  obtain ⟨out, c₁, hblock, rfl, -⟩ := scopeStmt_eq_ok h
  exact Core.Stmt.allStand_emitted.mpr ⟨Core.values_nil, (hv.block hc hblock).2⟩

/-! ## Branches and loops -/

theorem allStand_checkBranches (hc : Valuing c c) {b : Branching}
    {branches : List (Surface.Expr × Surface.Block)} {out : List (Core.Expr × Core.Block) × Branching}
    (h : checkBranches ask scope b branches c = .ok out d) :
    Valuing d d ∧ ∀ branch ∈ out.1, Values branch.1.parts ∧ AllStand branch.2.emitted := by
  induction branches generalizing b c out with
  | nil =>
    cases h
    exact ⟨hc, nofun⟩
  | cons branch rest ih =>
    obtain ⟨test, block, outcome, checked, b', c₁, c₂, htest, harm, hrest, rfl⟩ :=
      checkBranches_cons_eq_ok h
    obtain ⟨hc₁, hvalues⟩ := ensures_value hv hc htest
    obtain ⟨hc₂, hblock⟩ := allStand_checkArm hv hc₁ harm
    obtain ⟨hd, hbranches⟩ := ih hc₂ hrest
    exact ⟨hd, List.forall_mem_cons.mpr ⟨⟨hvalues, hblock⟩, hbranches⟩⟩

theorem allStand_checkOtherwise (hc : Valuing c c) {b : Branching} {otherwise : Option Surface.Block}
    {out : Option Core.Block × Branching} (h : checkOtherwise ask scope b otherwise c = .ok out d) :
    ∀ block, out.1 = some block → AllStand block.emitted := by
  intro block' hblock
  cases otherwise with
  | none =>
    cases h
    cases hblock
  | some body =>
    obtain ⟨block, outcome, harm, rfl⟩ := checkOtherwise_some_eq_ok h
    cases hblock
    exact (allStand_checkArm hv hc harm).2

theorem allStand_condStmt (hc : Valuing c c) {branches : List (Surface.Expr × Surface.Block)}
    {otherwise : Option Surface.Block} {kind : Core.StmtKind}
    (h : condStmt ask branches otherwise scope c = .ok kind d) :
    AllStand (Core.Stmt.mk kind span dead).emitted := by
  obtain ⟨checked, b, last, b', c₁, c₂, hbranches, hotherwise, rfl, -⟩ := condStmt_eq_ok h
  obtain ⟨hc₁, hchecked⟩ := allStand_checkBranches hv hc hbranches
  have hlast := allStand_checkOtherwise hv hc₁ hotherwise
  refine Core.Stmt.allStand_emitted.mpr ⟨?_, ?_⟩
  · refine Core.values_partsOf.mpr fun e he => ?_
    obtain ⟨branch, hbranch, rfl⟩ := List.mem_map.mp he
    exact (hchecked branch hbranch).1
  · exact Core.allStand_emittedBranches (fun branch hbranch => (hchecked branch hbranch).2)
      (Core.allStand_optionalBlock hlast)

theorem allStand_optionalStmt (hc : Valuing c c) {stmt : Option Surface.Stmt} {out : Option Core.Stmt}
    (h : optionalStmt ask scope stmt c = .ok out d) :
    Valuing d d ∧ ∀ s, out = some s → AllStand s.emitted := by
  cases stmt with
  | none =>
    cases h
    exact ⟨hc, nofun⟩
  | some stmt =>
    obtain ⟨s, hs, rfl⟩ := optionalStmt_some_eq_ok h
    obtain ⟨hd, hstands⟩ := hv.stmt hc hs
    refine ⟨hd, fun s' hs' => ?_⟩
    cases hs'
    exact hstands

theorem values_loopCondition (hc : Valuing c c) {condition : Option Surface.Expr}
    {out : Option Core.Expr × Option Bool} (h : loopCondition ask scope condition c = .ok out d) :
    Valuing d d ∧ Values (Core.partsOf out.1.toList) := by
  cases condition with
  | none =>
    cases h
    exact ⟨hc, Core.values_nil⟩
  | some e =>
    obtain ⟨test, htest, rfl⟩ := loopCondition_some_eq_ok h
    obtain ⟨hd, hvalues⟩ := ensures_value hv hc htest
    exact ⟨hd, Core.values_partsOf.mpr fun e he => List.mem_singleton.mp he ▸ hvalues⟩

theorem allStand_loopStmt (hc : Valuing c c) {form : LoopForm} {kind : Core.StmtKind}
    (h : loopStmt ask form scope c = .ok kind d) : AllStand (Core.Stmt.mk kind span dead).emitted := by
  obtain ⟨c₁, c₂, steps, -, -, rfl⟩ := loopStmt_eq_ok h
  have hnumbered : Valuing c { c with loopCount := c.loopCount + 1 } :=
    hc.of_eq rfl rfl rfl rfl fun _ => ⟨rfl, rfl⟩
  obtain ⟨hinit, hinitStands⟩ :=
    allStand_optionalStmt hv (hnumbered.self.reframe moves_openBlock) steps.hinit
  obtain ⟨htest, hvalues⟩ := values_loopCondition hv (hinit.reframe (moves_enter form _)) steps.hcondition
  obtain ⟨hbody, hbodyStands⟩ := allStand_checkArm hv htest steps.hbody
  obtain ⟨-, hstepStands⟩ := allStand_optionalStmt hv hbody steps.hstep
  refine Core.Stmt.allStand_emitted.mpr ⟨hvalues, ?_⟩
  exact Core.allStand_append.mpr ⟨Core.allStand_optionalStmt hinitStands,
    Core.allStand_append.mpr ⟨hbodyStands, Core.allStand_optionalStmt hstepStands⟩⟩

theorem allStand_checkStmt (hc : Valuing c c) {s : Surface.Stmt} {out : Core.Stmt}
    (h : checkStmt ask s scope c = .ok out d) : AllStand out.emitted := by
  obtain ⟨kind, hkind, rfl⟩ := checkStmt_eq_ok h
  refine stmtKind_elim hkind ?_ ?_ ?_ ?_ ?_ ?_ ?_ ?_
  · exact fun _ _ h => allStand_declStmt hv hc h
  · exact fun _ _ _ _ h => allStand_assignStmt hv hc h
  · exact fun _ _ h => allStand_exprStmt hv hc h
  · exact fun _ _ h => allStand_returnStmt hv hc h
  · exact fun _ _ _ h => allStand_jumpStmt h
  · exact fun _ _ _ h => allStand_condStmt hv hc h
  · exact fun _ _ h => allStand_loopStmt hv hc h
  · exact fun _ _ h => allStand_scopeStmt hv hc h

/-! ## Bodies -/

/-- The statements of an accepted body stand. -/
theorem allStand_checkBody (hc : Valuing c c) {id : GlobalId} {body : Body}
    (h : checkBody ask id c = .ok body d) : AllStand body.block.emitted := by
  obtain ⟨decl, owner, t, params, variadic, returns, c₁, -, hglobal, -, hbody⟩ := checkBody_eq_ok h
  obtain ⟨steps, rfl⟩ := checkTypedBody_eq_ok hbody
  have hc₁ : Valuing c c₁ := hv.keeps c _ (Run.ends_of_ok hglobal) hc
  have hlaid : Valuing c steps.laid :=
    preserves_completeParams (fun q _ => hv.keeps c q) _ (Run.ends_of_ok steps.hlaid) hc₁
  have hopened : Valuing c (opened steps.laid id returns) := hlaid.withFrame fun _ => rfl
  have hreceived := hv.checked hopened.self steps.hreceiver fun hC =>
    follows_declareReceiver hC.toFollowingFlat hC.declares _ _ _
  have hentered := hv.checked hreceived steps.hparams fun hC => follows_declareParams hC.declares _
  refine Core.allStand_emittedStmts (List.forall_mem_append.mpr
    ⟨allStand_checkStmts hv hentered steps.hstmts, ?_⟩)
  rcases finalReturn_eq_ok steps.hlast with ⟨-, hnone⟩ | ⟨-, -, span, hlast⟩
  · rw [hnone]
    exact nofun
  · rw [hlast]
    exact List.forall_mem_singleton.mpr (allStand_simple nofun rfl)

theorem valuing_program : FollowingProgram (.keeping (Valuing origin)) ask ask where
  toFollowingFunction := (valuing_body hv).toFollowingFunction
  bodyTaken _ _ _ _ := ⟨fun hc => hc.of_eq rfl rfl rfl rfl fun _ => ⟨rfl, rfl⟩, trivial⟩
  accepted c d id body hbody hmoves _ := by
    refine ⟨fun hc => ?_, trivial, trivial⟩
    have hd := hmoves hc
    refine ⟨(elaborated_lasting hv.elaborates).bodyAccepted c d id body hbody hc.toElaborated
      hd.toElaborated, ⟨hd.macros, hd.valued.silent, hd.valued.defaults, fun other hother => ?_⟩,
      hd.known.globals, hd.known.kept, hd.known.locals⟩
    rcases Array.mem_push.mp hother with hother | rfl
    · exact hd.valued.bodies other hother
    · exact allStand_checkBody hv hc.self hbody

/-- One step of nesting. -/
theorem Valuer.step : Valuer (step ask) where
  elaborates := hv.elaborates.step
  faithful := hv.faithful.step
  keeps origin q := by
    have hanswers (q : Query) (_ : q.isExpr) := hv.keeps origin q
    exact ((valuing_body hv).toFollowingFlat.step
      (fun block scope => follows_checkBlock (valuing_body hv) block scope)
      (fun form scope => follows_loopStmt (valuing_body hv) form scope)
      (fun id usedAt => (preserves_resolveAlias hanswers valuing_detached
        (fun _ _ hc => hc.of_eq rfl rfl rfl rfl fun _ => ⟨rfl, rfl⟩)
        (fun _ _ _ hc => hc.of_eq rfl rfl rfl rfl fun _ => ⟨rfl, rfl⟩) id usedAt).follows)
      (fun id usedAt => (valuing_resolveStruct hv id usedAt).follows)
      (fun id usedAt => (valuing_resolveGlobal hv id usedAt).follows) q).preserves
  sound {c d q a} hc h := by
    cases q with
    | value e expected scope => exact (ensures_checkValue hv hc h).2
    | denoted e write scope => exact (ensures_checkDenoted hv hc h).2
    | stmt s scope => exact allStand_checkStmt hv hc h
    | block b scope => exact allStand_checkBlock hv hc h
    | type t scope => trivial
    | typeAlias id usedAt => trivial
    | layout id usedAt => trivial
    | global id usedAt => trivial

end

theorem valuer_answerTo (n : Nat) : Valuer (answerTo n) := by
  induction n with
  | zero => exact ⟨elaborates_answerTo 0, faithful_answerTo 0, fun _ _ => Run.preserves_stop _,
      fun _ h => by cases h⟩
  | succ n ih => exact ih.step

theorem valuer_answer : Valuer answer := valuer_answerTo nestingBound

end Check

/-! ## The standard package -/

/-- The macros that print. -/
def Intrinsic.names : List String := ["print", "println"]

theorem Intrinsic.of_ofPath? {path : String} (h : (ofPath? path).isSome) :
    ∃ name ∈ names, path = pathOf Check.standardPackage name := by
  unfold ofPath? at h
  split at h
  · exact ⟨"print", List.mem_cons_self, rfl⟩
  · exact ⟨"println", List.mem_cons_of_mem _ List.mem_cons_self, rfl⟩
  · cases h

/-- The macros that a file declares, with whether they have no parameters for types and return nothing. -/
def Surface.Module.macros (file : Surface.Module) : List (String × Bool × Bool) :=
  file.items.filterMap fun item =>
    match item.kind with
    | .macroDecl decl => some (decl.name.name, item.template.isEmpty, decl.returns.isNone)
    | _ => none

theorem Surface.Module.mem_macros {file : Surface.Module} {made : String × Bool × Bool} :
    made ∈ file.macros ↔ ∃ item ∈ file.items, ∃ decl, item.kind = .macroDecl decl ∧
      made = (decl.name.name, item.template.isEmpty, decl.returns.isNone) := by
  refine List.mem_filterMap.trans (exists_congr fun item => and_congr_right fun _ => ?_)
  split
  · rename_i decl hkind
    simp [hkind, eq_comm]
  · rename_i hkind
    exact ⟨nofun, fun ⟨decl, hdecl, _⟩ => absurd hdecl (hkind decl)⟩

/-- A file of the standard package, which declares the macros that print and no other ones. -/
structure Surface.Module.Standard (file : Surface.Module) : Prop where
  package : file.package.name = Check.standardPackage
  imports : file.imports = []
  macros : file.macros = Intrinsic.names.map (·, true, true)

theorem standard_prelude {file : Surface.Module} (h : SourceFile.prelude.parse = .ok file) :
    file.Standard := by
  have hfacts : (SourceFile.prelude.parse.toOption.map fun file =>
      (file.package.name, file.imports.isEmpty, file.macros)) =
        some ("std", true, [("print", true, true), ("println", true, true)]) := by
    rw [SourceFile.prelude, Prelude.text, SourceFile.parse_join]
    decide +kernel
  rw [h] at hfacts
  have hfacts := Option.some.inj hfacts
  simp only [Prod.mk.injEq] at hfacts
  exact ⟨hfacts.1, List.isEmpty_iff.mp hfacts.2.1, hfacts.2.2⟩

namespace Context

variable {c d e : Context}

/-- Packages have kept their names and macros. -/
structure Restocks (c d : Context) : Prop where
  size : d.packages.size = c.packages.size
  name : ∀ id, (d.package id).name = (c.package id).name
  macros : ∀ id name, ((c.package id).macro? name).isSome → ((d.package id).macro? name).isSome

theorem restocks_of_eq (h : d.packages = c.packages) : c.Restocks d := by
  have hpackage (id : PackageId) : d.package id = c.package id := by
    unfold package
    rw [h]
  exact ⟨congrArg Array.size h, fun id => by rw [hpackage], fun id _ hsome => by rwa [hpackage]⟩

theorem Restocks.trans (h : c.Restocks d) (h' : d.Restocks e) : c.Restocks e where
  size := h'.size.trans h.size
  name id := (h'.name id).trans (h.name id)
  macros id name hsome := h'.macros id name (h.macros id name hsome)

/-- A package gets more members and macros. -/
theorem restocks_modifyPackage (c : Context) (id : PackageId) {change : Package → Package}
    (hname : ∀ p, (change p).name = p.name) (hmacros : ∀ p, ∃ more, (change p).macros = p.macros ++ more) :
    c.Restocks (c.modifyPackage id change) := by
  refine ⟨Array.size_modify, fun other => ?_, fun other name hsome => ?_⟩
  · rw [package_modifyPackage]
    split
    · exact hname _
    · rfl
  · rw [package_modifyPackage]
    split
    · obtain ⟨more, hmore⟩ := hmacros (c.package other)
      rw [Package.macro?, hmore, List.lookup_append, Option.isSome_or]
      exact Bool.or_eq_true_iff.mpr (.inl hsome)
    · exact hsome

theorem restocks_withMacro (c : Context) (id : PackageId) (name : String) (m : MacroDef) :
    c.Restocks (c.withMacro id name m) := by
  have hpushed : c.Restocks { c with macros := c.macros.push m } := restocks_of_eq rfl
  refine hpushed.trans ?_
  exact restocks_modifyPackage _ id (fun _ => rfl) fun _ => ⟨_, rfl⟩

/-- There is a standard package, and it has the macros that print. -/
structure Equipped (c : Context) : Prop where
  standard : ∃ id : PackageId, id.index < c.packages.size ∧ (c.package id).name = Check.standardPackage
  macros : ∀ id, (c.package id).name = Check.standardPackage →
    ∀ name ∈ Intrinsic.names, ((c.package id).macro? name).isSome

theorem Equipped.restocks (h : c.Equipped) (hcd : c.Restocks d) : d.Equipped where
  standard := by
    obtain ⟨id, hid, hname⟩ := h.standard
    exact ⟨id, hcd.size ▸ hid, (hcd.name id).trans hname⟩
  macros id hname name hmem := hcd.macros id name (h.macros id ((hcd.name id).symm.trans hname) name hmem)

/-- A package that is new has another name. -/
theorem Equipped.withPackage (h : c.Equipped) {name : String} (hnone : c.findPackage name = none) :
    (c.withPackage name).Equipped := by
  obtain ⟨id, hid, hstandard⟩ := h.standard
  refine ⟨⟨id, ?_, ?_⟩, fun other => ?_⟩
  · exact hid.trans_le (by simp [Context.withPackage])
  · rw [package_withPackage, if_neg hid.ne]
    exact hstandard
  · rw [package_withPackage]
    split
    · exact fun hname => absurd (hstandard.trans hname.symm) (findPackage_eq_none hnone id hid)
    · exact h.macros other

end Context

namespace Check

variable {origin c d : Context} {options : Options}

theorem restocks_addMember (package : PackageId) (name : Surface.Ident) (member : Member) :
    (addMember package name member).Preserves c.Restocks :=
  Run.preserves_modify fun d hd => hd.trans
    (d.restocks_modifyPackage package (fun _ => rfl) fun _ => ⟨[], (List.append_nil _).symm⟩)

theorem restocks_declareItem (item : Surface.Item) (scope : Scope) :
    (declareItem item scope).Preserves c.Restocks := by
  have hsame {d e : Context} (hd : c.Restocks d) (h : e.packages = d.packages) : c.Restocks e :=
    hd.trans (Context.restocks_of_eq h)
  refine preserves_declareItem_of (restocks_addMember _ _) ?_
    (preserves_declareTemplate_of (restocks_addMember _ _) fun _ _ _ hd => hsame hd rfl)
  exact Context.preserves_declareEntity_of (fun _ _ _ _ _ _ hd => hsame hd rfl)
    (fun _ _ _ _ _ _ hd => hsame hd Context.adds_newStruct.packages)
    (fun _ _ _ _ _ hd => hsame hd rfl) (fun _ _ hd => hsame hd rfl)
    fun d m _ _ _ _ hd => hd.trans (d.restocks_withMacro _ _ m)

/-- A macro that is declared is one of its package's. -/
theorem macro?_declareItem {item : Surface.Item} {decl : Surface.MacroDecl} {scope : Scope}
    (hitem : item.template = []) (hkind : item.kind = .macroDecl decl)
    (hscope : scope.package.index < c.packages.size) (h : declareItem item scope c = .ok ⟨⟩ d) :
    ((d.package scope.package).macro? decl.name.name).isSome := by
  unfold declareItem at h
  rw [hitem, hkind, List.isEmpty_nil, if_pos rfl] at h
  obtain ⟨made, e, hentity, hmember⟩ := Run.bind_eq_ok.mp h
  rw [Context.declareEntity_macroDecl] at hentity
  obtain ⟨⟨⟩, e', hmacro, hreturn⟩ := Run.bind_eq_ok.mp hentity
  cases hreturn
  cases hmember
  obtain ⟨m, rfl, -⟩ := declareMacro_eq_ok hmacro
  unfold Context.withMacro
  rw [Context.package_modifyPackage, if_pos ⟨rfl, hscope⟩, Package.macro?, List.lookup_append,
    Option.isSome_or]
  simp

/-- The files of the standard package come first. -/
theorem equipped_standard {file : Surface.Module} (hfile : file.Standard)
    (h : declareModule file { options } = .ok ⟨⟩ d) : d.Equipped := by
  unfold declareModule at h
  rw [hfile.package, hfile.imports] at h
  obtain ⟨package, c₁, hpackage, h⟩ := Run.bind_eq_ok.mp h
  obtain ⟨imports, c₂, himports, h⟩ := Run.bind_eq_ok.mp h
  obtain ⟨⟨⟩, c₃, hitems, hreturn⟩ := Run.bind_eq_ok.mp h
  let start : Context := ({ options } : Context).withPackage standardPackage
  have hnone : ({ options } : Context).findPackage standardPackage = none := by
    simp [Context.findPackage]
  unfold packageId at hpackage
  obtain ⟨_, _, hget, hpackage⟩ := Run.bind_eq_ok.mp hpackage
  cases hget
  rw [hnone] at hpackage
  cases hpackage
  cases himports
  cases hreturn
  obtain ⟨-, hrestocks, hrounds⟩ := Run.forIn_rounds (P := start.Restocks) (R := Context.Restocks)
    (fun _ => Context.restocks_of_eq rfl) Context.Restocks.trans (fun item _ s _ t hdeclared hs => by
      have hst := restocks_declareItem item _ (Run.ends_of_ok hdeclared) (Context.restocks_of_eq rfl)
      exact ⟨hs.trans hst, hst⟩) hitems (Context.restocks_of_eq rfl)
  have hsize : d.packages.size = 1 := hrestocks.size
  refine ⟨⟨⟨0⟩, hsize ▸ Nat.one_pos, hrestocks.name ⟨0⟩⟩, fun id hname name hmem => ?_⟩
  -- It is the only package.
  obtain rfl : id = ⟨0⟩ := by
    by_contra hne
    have hbehind : d.packages.size ≤ id.index := by
      have : id.index ≠ 0 := fun hzero => hne (congrArg PackageId.mk hzero)
      omega
    unfold Context.package at hname
    rw [Array.getElem?_eq_none hbehind] at hname
    exact absurd (show "" = standardPackage from hname) (by decide)
  have hmacro : (name, true, true) ∈ file.macros :=
    hfile.macros ▸ List.mem_map.mpr ⟨name, hmem, rfl⟩
  obtain ⟨item, hitem, decl, hkind, hmade⟩ := Surface.Module.mem_macros.mp hmacro
  simp only [Prod.mk.injEq] at hmade
  obtain ⟨s, ⟨⟩, t, hs, -, hdeclared, hlast⟩ := hrounds item hitem
  rw [hmade.1]
  refine hlast.macros ⟨0⟩ _ (macro?_declareItem (List.isEmpty_iff.mp hmade.2.1.symm) hkind ?_ hdeclared)
  rw [hs.size]
  exact Nat.one_pos

/-! ## Programs -/

theorem Tended.withTemplate (hc : Tended origin c) (t : TemplateDef) :
    Tended origin { c with templates := c.templates.push t } := hc.of_eq rfl rfl rfl

/-- The macros of the standard package return nothing. -/
theorem tended_standard {file : Surface.Module} (hfile : file.Standard) :
    (declareModule file).Preserves (Tended origin) := by
  have hpackages (c : Context) (packages : Array Package) (hc : Tended origin c) :
      Tended origin { c with packages } := hc.of_eq rfl rfl rfl
  refine preserves_declareModule_of (preserves_packageId hpackages) fun item hitem =>
    preserves_declareItem hpackages (fun scope names => tended_declareEntity fun c m hkind _ hreturns _ => ?_)
      (preserves_declareTemplate hpackages fun _ t _ hc => hc.withTemplate t)
  have hmacro := Surface.Module.mem_macros.mpr ⟨item, hitem, m.decl, hkind, rfl⟩
  rw [hfile.macros] at hmacro
  obtain ⟨name, -, hmade⟩ := List.mem_map.mp hmacro
  simp only [Prod.mk.injEq] at hmade
  exact ⟨Option.isNone_iff_eq_none.mp hmade.2.2.symm, by rw [hreturns]; rfl⟩

/-- Once the macros that print are declared, no other macro has the path of one. -/
theorem tended_declareModule {file : Surface.Module} (hfile : file.IsRead) :
    (declareModule file).Preserves fun c => Tended origin c ∧ c.Equipped := by
  obtain ⟨_, _, hread⟩ := hfile
  refine preserves_declareModule_of (fun name => preserves_packageId_of fun c hnone hc =>
    ⟨hc.1.of_eq rfl rfl rfl, hc.2.withPackage hnone⟩) fun item hmem scope => ?_
  have hsame {d e : Context} (hd : Tended origin d ∧ d.Equipped) (htended : Tended origin e)
      (h : e.packages = d.packages) : Tended origin e ∧ e.Equipped :=
    ⟨htended, hd.2.restocks (Context.restocks_of_eq h)⟩
  have hmember (member : Member) :
      (addMember scope.package item.name member).Preserves fun c => Tended origin c ∧ c.Equipped :=
    fun c d hd hc => ⟨preserves_addMember (fun _ _ hc => hc.of_eq rfl rfl rfl) _ _ _ hd hc.1,
      hc.2.restocks (restocks_addMember _ _ _ hd (Context.restocks_of_eq rfl))⟩
  refine preserves_declareItem_of hmember ?_
    (preserves_declareTemplate_of hmember fun c t _ hc => hsame hc (hc.1.withTemplate t) rfl)
  have hglobal (c : Context) (g : Global) (hc : Tended origin c ∧ c.Equipped) :
      Tended origin (c.withGlobal g) ∧ (c.withGlobal g).Equipped := hsame hc (hc.1.withGlobal g) rfl
  refine Context.preserves_declareEntity_of (fun c _ _ _ _ _ => hglobal c _)
    (fun _ _ _ _ _ _ hc => hsame hc (hc.1.newStruct ..) Context.adds_newStruct.packages)
    (fun c _ _ _ _ => hglobal c _)
    (fun _ _ hc => hsame hc (hc.1.of_eq rfl rfl rfl) rfl) fun c m hkind hnone hname hreturns hc => ?_
  refine ⟨hc.1.withMacro (fun hsome => ?_) _ _, hc.2.restocks (c.restocks_withMacro _ _ m)⟩
  obtain ⟨name, hintrinsic, hpath⟩ := Intrinsic.of_ofPath? hsome
  have hword : IsWord item.kind.name.name := by
    have hlegible := legible_parse hread item hmem
    rw [hkind] at hlegible ⊢
    exact hlegible
  have hintrinsicWord : IsWord name := by
    simp only [Intrinsic.names, List.mem_cons, List.not_mem_nil, or_false] at hintrinsic
    rcases hintrinsic with rfl | rfl
    · exact ⟨'p', ['r', 'i', 'n', 't'], by simp, by decide, List.all_eq_true.mp (by decide)⟩
    · exact ⟨'p', ['r', 'i', 'n', 't', 'l', 'n'], by simp, by decide, List.all_eq_true.mp (by decide)⟩
  obtain ⟨hpackage, rfl⟩ := pathOf_inj hword hintrinsicWord (hname.symm.trans hpath)
  have hsome := hc.2.macros scope.package hpackage _ hintrinsic
  rw [hkind] at hsome
  rw [show (Surface.ItemKind.macroDecl m.decl).name.name = m.decl.name.name from rfl, hnone] at hsome
  cases hsome

/-- The standard package is read ahead of the files of a program, if the options ask for it. -/
theorem parseProgram_eq_ok {files : List SourceFile} {modules : List Surface.Module}
    (hstd : options.includeStd = true) (h : parseProgram options files = .ok modules) :
    ∃ first rest, modules = first :: rest ∧ SourceFile.prelude.parse = .ok first ∧
      ∀ file ∈ rest, file.IsRead := by
  have hread := isRead_parseProgram h
  unfold parseProgram at h
  rw [if_pos hstd, List.mapM_cons] at h
  cases hfirst : SourceFile.prelude.parse with
  | error why =>
    rw [hfirst] at h
    cases h
  | ok first =>
    cases hrest : files.mapM SourceFile.parse with
    | error why =>
      rw [hfirst, hrest] at h
      cases h
    | ok rest =>
      rw [hfirst, hrest] at h
      cases h
      exact ⟨first, rest, rfl, rfl, (List.forall_mem_cons.mp hread).2⟩

/-- What a program that is accepted is made of stands for values. -/
theorem valued_checkProgram {files : List SourceFile} (hstd : options.includeStd = true)
    (h : checkProgram options files = .ok c) : c.Valued := by
  obtain ⟨modules, hparsed, h⟩ := checkProgram_eq_ok h
  obtain ⟨_, c₁, hdeclare, hpasses⟩ := Run.bind_eq_ok.mp h
  obtain ⟨first, rest, rfl, hfirst, hrest⟩ := parseProgram_eq_ok hstd hparsed
  have hlasts {P : Context → Prop} (hP : Lasting answer P) (hstart : P { options }) : P c₁ :=
    Run.preserves_forIn (fun file _ => (preserves_declareModule hP file).bind
      fun _ => Run.preserves_pure _) _ _ (Run.ends_of_ok hdeclare) hstart
  rw [List.forIn_cons] at hdeclare
  obtain ⟨step, c₂, hstep, hothers⟩ := Run.bind_eq_ok.mp hdeclare
  obtain ⟨⟨⟩, c₃, hmodule, hyield⟩ := Run.bind_eq_ok.mp hstep
  cases hyield
  have hstandard := standard_prelude hfirst
  have hblank : Tended { options } ({ options } : Context) := ⟨.refl .refl _, nofun, nofun, nofun⟩
  have htended : Tended { options } c₁ ∧ c₁.Equipped :=
    Run.preserves_forIn_mem (fun file hmem _ => (tended_declareModule (hrest file hmem)).bind
      fun _ => Run.preserves_pure _) _ (Run.ends_of_ok hothers)
      ⟨tended_standard hstandard (Run.ends_of_ok hmodule) hblank, equipped_standard hstandard hmodule⟩
  have helaborated := hlasts (elaborated_lasting elaborates_answer)
    ⟨.refl _, Session.wellTyped_start options⟩
  have hknown := hlasts (known_lasting faithful_answer) ⟨nofun, fun _ _ => rfl, nofun⟩
  exact ((valuing_program valuer_answer).preserves_passes (Run.ends_of_ok hpasses)
    ⟨helaborated, htended.1, hknown⟩).valued

end Check

end OwnLang
