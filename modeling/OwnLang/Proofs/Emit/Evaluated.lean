import OwnLang.Proofs.Emit.PrintCalls

/-!
# Nodes that are evaluated

A node is evaluated when code for it is emitted, wherever it stands in its statement. Nothing is evaluated below
a node of which the value is known, and neither is the format of a macro that prints, nor a condition that is
known (`Core.Stmt.evaluated`). Emission passes through the emission of each node that is evaluated
(`Emit.evaluates_emitStmt`), and what it emitted there stays.
-/

namespace OwnLang

namespace Core

mutual

/-- The nodes of an expression that are evaluated. -/
def Expr.evaluated : Expr → List Expr
  | .mk kind t constant span =>
    .mk kind t constant span :: if (Emit.literal? t constant).isNone then kind.evaluated else []

/-- The nodes below a form that are evaluated. -/
def ExprKind.evaluated : ExprKind → List Expr
  | .int _ | .bool _ | .str _ | .function _ | .macroCall _ [] => []
  | .load place | .address place => place.evaluated
  | .call callee args => callee.evaluated ++ evaluatedOf args
  | .macroCall _ (_ :: values) => evaluatedOf values
  | .binary _ left right => left.evaluated ++ right.evaluated
  | .unary _ operand => operand.evaluated
  | .cast value _ => value.evaluated
  | .extract base _ => base.evaluated
  | .structInit _ values _ | .arrayInit _ values _ => evaluatedOf values
  | .arrayFill _ size value _ => size.evaluated ++ value.evaluated
  | .new value => value.evaluated

/-- The nodes below a location that are evaluated. -/
def Place.evaluated : Place → List Expr
  | .mk kind _ _ _ => kind.evaluated

/-- The nodes below the form of a location that are evaluated. -/
def PlaceKind.evaluated : PlaceKind → List Expr
  | .slot _ | .global _ => []
  | .deref pointer => pointer.evaluated
  | .field base _ _ => base.evaluated
  | .element data index => data.evaluated ++ index.evaluated

/-- The nodes of the expressions of a list that are evaluated. -/
def evaluatedOf : List Expr → List Expr
  | [] => []
  | e :: rest => e.evaluated ++ evaluatedOf rest

end

/-- The nodes of the conditions of branches that are evaluated. -/
def evaluatedTests : List (Expr × Block) → List Expr
  | [] => []
  | (condition, _) :: rest =>
    match condition.known? with
    | some false => evaluatedTests rest
    | some true => []
    | none => condition.evaluated ++ evaluatedTests rest

/-- The nodes that a statement evaluates itself, those of the statements in it left out. -/
def Stmt.evaluated (s : Stmt) : List Expr :=
  match s.kind with
  | .declare _ (some value) | .expr value _ | .ret (some value) _ => value.evaluated
  | .assign target value _ => value.evaluated ++ target.evaluated
  | .cond branches _ => evaluatedTests branches
  | .loop _ _ (some test) _ _ _ => if test.known? = some true then [] else test.evaluated
  | .declare _ none | .ret none _ | .loop _ _ none _ _ _ | .brk _ _ | .cont _ _ | .scope _ => []

end Core

namespace Emit

open Ir (Operand Build)
open OwnLang.Core (TypeEnv Expr ExprKind PlaceKind Stmt Block evaluatedOf evaluatedTests)

variable {α β : Type} {Γ : TypeEnv} {nodes first rest : List Expr} {e : Emit α} {f : α → Emit β}

/-- Nodes are well typed, and are evaluated in the course of a part of emission. -/
structure Evaluates (Γ : TypeEnv) (nodes : List Expr) (e : Emit α) : Prop extends Extending e where
  evaluated : ∀ ⦃s a t⦄, e s = .ok a t → ∀ node ∈ nodes,
    node.Typed Γ ∧ ∃ s₁ o t₁, s.Extends s₁ ∧ emitExpr node s₁ = .ok o t₁ ∧ t₁.Extends t

theorem evaluates_extending [he : Extending e] : Evaluates Γ [] e :=
  ⟨he, fun _ _ _ _ _ hnode => absurd hnode List.not_mem_nil⟩

theorem evaluates_reject (cause : Cause) (span : Span) : Evaluates Γ nodes (Run.reject cause span : Emit α) where
  kept h := by cases h
  evaluated s a t h := by cases h

theorem Evaluates.bind (he : Evaluates Γ first e) (hf : ∀ a, Evaluates Γ rest (f a)) :
    Evaluates Γ (first ++ rest) (e >>= f) where
  kept h := by
    obtain ⟨a, s, hx, hy⟩ := Run.bind_eq_ok.mp h
    exact (he.kept hx).trans ((hf a).kept hy)
  evaluated s b u h node hnode := by
    obtain ⟨a, t, hx, hy⟩ := Run.bind_eq_ok.mp h
    rcases List.mem_append.mp hnode with hnode | hnode
    · obtain ⟨htyped, s₁, o, t₁, hs₁, hrun, ht₁⟩ := he.evaluated hx node hnode
      exact ⟨htyped, s₁, o, t₁, hs₁, hrun, ht₁.trans ((hf a).kept hy)⟩
    · obtain ⟨htyped, s₁, o, t₁, hs₁, hrun, ht₁⟩ := (hf a).evaluated hy node hnode
      exact ⟨htyped, s₁, o, t₁, (he.kept hx).trans hs₁, hrun, ht₁⟩

/-- Nothing more is evaluated behind a part of emission. -/
theorem Evaluates.andThen (he : Evaluates Γ nodes e) (hf : ∀ a, Evaluates Γ [] (f a)) :
    Evaluates Γ nodes (e >>= f) := by
  have hall := he.bind hf
  rwa [List.append_nil] at hall

theorem Evaluates.before (he : Evaluates Γ nodes e) [∀ a, Extending (f a)] : Evaluates Γ nodes (e >>= f) :=
  he.andThen fun _ => evaluates_extending

theorem Evaluates.behind [Extending e] (hf : ∀ a, Evaluates Γ nodes (f a)) : Evaluates Γ nodes (e >>= f) :=
  evaluates_extending.bind hf

/-- A node is evaluated itself, and in the course of that the nodes below it are. -/
theorem Evaluates.node {node : Expr} (h : node.Typed Γ) (hbelow : Evaluates Γ nodes (emitExpr node)) :
    Evaluates Γ (node :: nodes) (emitExpr node) where
  kept := hbelow.kept
  evaluated s o t hrun :=
    List.forall_mem_cons.mpr ⟨⟨h, s, o, t, .refl _, hrun, .refl _⟩, hbelow.evaluated hrun⟩

theorem evaluates_shortCircuit {decided : Bool} {left right : Emit Operand} (hleft : Evaluates Γ first left)
    (hright : Evaluates Γ rest right) : Evaluates Γ (first ++ rest) (shortCircuit decided left right) := by
  unfold shortCircuit
  refine hleft.bind fun a => .behind fun _ => .behind fun other => .behind fun done => ?_
  split
  all_goals exact .behind fun _ => .behind fun _ => hright.before

theorem evaluates_bothOperands {t : Ty} {instr : Operand → Ir.Ref → Ir.Instr} {left right : Emit Operand}
    (hleft : Evaluates Γ first left) (hright : Evaluates Γ rest right) :
    Evaluates Γ (first ++ rest) (bothOperands t instr left right) :=
  hleft.bind fun _ => hright.before

mutual

theorem evaluates_emitExpr : (e : Expr) → e.Typed Γ → Evaluates Γ e.evaluated (emitExpr e)
  | .mk kind t constant span, h => by
    have hkind := evaluates_emitKind span kind h
    unfold Expr.evaluated
    refine .node h ?_
    unfold emitExpr
    cases literal? t constant with
    | none => exact hkind
    | some known => exact evaluates_extending

theorem evaluates_emitKind {t : Ty} {constant : Option Const} (span : Span) : (kind : ExprKind) →
    (Expr.mk kind t constant span).Typed Γ → Evaluates Γ kind.evaluated (emitKind t span kind)
  | .int _, _ | .bool _, _ | .str _, _ | .function _, _ => by
    unfold emitKind ExprKind.evaluated
    exact evaluates_extending
  | .load place, h => by
    cases h with
    | load hplace =>
      unfold emitKind ExprKind.evaluated
      exact (evaluates_emitPlace place hplace).before
  | .address place, h => by
    cases h with
    | address hplace _ =>
      unfold emitKind ExprKind.evaluated
      exact evaluates_emitPlace place hplace
  | .call callee args, h => by
    cases h with
    | call hcallee hshape hargs _ _ =>
      unfold emitKind ExprKind.evaluated
      rw [hshape]
      exact (evaluates_emitExpr callee hcallee).bind fun _ => (evaluates_emitArguments _ args hargs).before
  | .macroCall id [], h => by
    unfold emitKind ExprKind.evaluated
    refine .behind fun c => ?_
    dsimp only
    cases Intrinsic.ofPath? (c.macroDef id).fullName with
    | none => exact evaluates_extending
    | some intrinsic =>
      unfold emitMacro
      exact evaluates_extending
  | .macroCall id (format :: values), h => by
    cases h with
    | macroCall hargs =>
      have hvalues := fun pieces => evaluates_emitPieces pieces values fun v hv => hargs v (List.mem_cons_of_mem _ hv)
      unfold emitKind ExprKind.evaluated
      refine .behind fun c => ?_
      dsimp only
      cases Intrinsic.ofPath? (c.macroDef id).fullName with
      | none => exact evaluates_reject _ _
      | some intrinsic =>
        unfold emitMacro
        exact .behind fun pieces => (hvalues pieces).before
  | .binary op left right, h => by
    have hof : left.Typed Γ ∧ right.Typed Γ := by
      cases h with
      | arithmetic _ hleft hright _ _ _ => exact ⟨hleft, hright⟩
      | comparison _ hleft hright _ _ _ => exact ⟨hleft, hright⟩
      | logical _ hleft hright _ _ _ => exact ⟨hleft, hright⟩
    have hleft := evaluates_emitExpr left hof.1
    have hright := evaluates_emitExpr right hof.2
    unfold emitKind ExprKind.evaluated
    cases evaluation op with
    | arithmetic code => exact evaluates_bothOperands hleft hright
    | comparison how => exact evaluates_bothOperands hleft hright
    | shortCircuit decided => exact evaluates_shortCircuit hleft hright
  | .unary op operand, h => by
    have hoperand : operand.Typed Γ := by cases h <;> assumption
    unfold emitKind ExprKind.evaluated
    exact (evaluates_emitExpr operand hoperand).before
  | .cast value how, h => by
    have hvalue : value.Typed Γ := by cases h <;> assumption
    unfold emitKind ExprKind.evaluated
    exact (evaluates_emitExpr value hvalue).before
  | .extract base index, h => by
    cases h with
    | extract hbase _ _ _ =>
      unfold emitKind ExprKind.evaluated
      exact (evaluates_emitExpr base hbase).before
  | .structInit id values heap, h => by
    cases h with
    | structInit hvalues _ _ _ =>
      have : Growing (fun _ => False) 0 (do byteSize ((← context).structType id)) := .cast inferInstance rfl
      unfold emitKind ExprKind.evaluated
      exact .behind fun c => (evaluates_emitAggregate _ 0 values hvalues).before
  | .arrayInit element values heap, h => by
    cases h with
    | arrayInit hvalues _ _ =>
      unfold emitKind ExprKind.evaluated
      exact .behind fun type => (evaluates_emitAggregate _ 0 values hvalues).before
  | .arrayFill element size value heap, h => by
    cases h with
    | arrayFill hsize hvalue _ _ _ _ =>
      unfold emitKind ExprKind.evaluated
      exact (evaluates_emitExpr size hsize).bind fun _ => (evaluates_emitExpr value hvalue).before
  | .new value, h => by
    have hvalue : value.Typed Γ := by cases h; assumption
    unfold emitKind ExprKind.evaluated
    exact .behind fun _ => (evaluates_emitExpr value hvalue).before

theorem evaluates_emitArguments (fixed : Nat) : (args : List Expr) → (∀ arg ∈ args, arg.Typed Γ) →
    Evaluates Γ (evaluatedOf args) (emitArguments fixed args)
  | [], _ => by
    unfold emitArguments evaluatedOf
    exact evaluates_extending
  | arg :: rest, h => by
    have harg := evaluates_emitExpr arg (h arg List.mem_cons_self)
    have hrest := evaluates_emitArguments (fixed - 1) rest fun a ha => h a (List.mem_cons_of_mem _ ha)
    unfold emitArguments evaluatedOf
    refine harg.bind fun value => ?_
    split
    all_goals exact .behind fun _ => hrest.before

theorem evaluates_emitAggregate (aggregate : Operand) (index : Nat) : (values : List Expr) →
    (∀ value ∈ values, value.Typed Γ) → Evaluates Γ (evaluatedOf values) (emitAggregate aggregate index values)
  | [], _ => by
    unfold emitAggregate evaluatedOf
    exact evaluates_extending
  | part :: rest, h => by
    have hpart := evaluates_emitExpr part (h part List.mem_cons_self)
    have hrest := fun next => evaluates_emitAggregate next (index + 1) rest fun a ha => h a (List.mem_cons_of_mem _ ha)
    unfold emitAggregate evaluatedOf
    exact hpart.bind fun value => .behind fun next => hrest next

theorem evaluates_emitPieces (pieces : List String) : (values : List Expr) → (∀ value ∈ values, value.Typed Γ) →
    Evaluates Γ (evaluatedOf values) (emitPieces pieces values)
  | [], _ => by
    unfold emitPieces evaluatedOf
    exact evaluates_extending
  | value :: rest, h => by
    have hvalue := evaluates_emitExpr value (h value List.mem_cons_self)
    have hrest := evaluates_emitPieces pieces.tail rest fun a ha => h a (List.mem_cons_of_mem _ ha)
    unfold emitPieces evaluatedOf
    exact hvalue.bind fun operand => .behind fun shown => hrest.before

theorem evaluates_emitPlace : (place : Core.Place) → place.Typed Γ → Evaluates Γ place.evaluated (emitPlace place)
  | .mk kind t constant span, h => by
    unfold emitPlace Core.Place.evaluated
    exact evaluates_emitPlaceKind kind h

theorem evaluates_emitPlaceKind {t : Ty} {constant : Bool} {span : Span} : (kind : PlaceKind) →
    (Core.Place.mk kind t constant span).Typed Γ → Evaluates Γ kind.evaluated (emitPlaceKind t kind)
  | .slot _, _ | .global _, _ => by
    unfold emitPlaceKind PlaceKind.evaluated
    exact evaluates_extending
  | .deref pointer, h => by
    cases h with
    | deref hpointer _ _ =>
      unfold emitPlaceKind PlaceKind.evaluated
      exact evaluates_emitExpr pointer hpointer
  | .field base id index, h => by
    cases h with
    | field hbase _ _ _ _ =>
      unfold emitPlaceKind PlaceKind.evaluated
      exact (evaluates_emitExpr base hbase).before
  | .element data index, h => by
    cases h with
    | element hdata hindex _ _ =>
      unfold emitPlaceKind PlaceKind.evaluated
      exact (evaluates_emitExpr data hdata).bind fun _ => (evaluates_emitExpr index hindex).before

end

theorem evaluates_emitLoop {id : LoopId} {condition : Option Expr} {body step : Emit Unit} {exitDrops : List LocalId}
    [Extending body] [Extending step] (htest : ∀ first done, Evaluates Γ nodes (emitLoopTest condition first done)) :
    Evaluates Γ nodes (emitLoop id condition body step exitDrops) := by
  have henter (labels : LoopLabels) : Growing (fun _ => False) 0 (enterLoop id labels) :=
    growing_enterLoop not_false labels
  unfold emitLoop
  exact .behind fun check => .behind fun first => .behind fun next => .behind fun done => .behind fun _ =>
    .behind fun _ => (htest first done).andThen fun _ => .behind fun _ => .behind fun _ => .behind fun _ =>
      evaluates_extending

theorem evaluates_emitLoopTest {test : Expr} {first done : Ir.Label} (h : test.Typed Γ) :
    Evaluates Γ (if test.known? = some true then [] else test.evaluated) (emitLoopTest (some test) first done) := by
  unfold emitLoopTest
  dsimp only
  split
  · exact evaluates_extending
  · exact (evaluates_emitExpr test h).before

theorem evaluates_emitBranches {returns : Ty} (done : Ir.Label) (otherwise : Emit Unit) [Extending otherwise] :
    (branches : List (Expr × Block)) → (∀ branch ∈ branches, branch.1.Typed Γ) →
    (∀ branch ∈ branches, branch.2.Typed Γ returns) →
    Evaluates Γ (evaluatedTests branches) (emitBranches done branches otherwise)
  | [], _, _ => by
    unfold emitBranches evaluatedTests
    exact evaluates_extending
  | (condition, body) :: rest, htests, hbodies => by
    have hcondition := evaluates_emitExpr condition (htests _ List.mem_cons_self)
    have hbody := (emits_emitBlock body (hbodies _ List.mem_cons_self)).toExtending
    have hrest := evaluates_emitBranches done otherwise rest
      (fun b hb => htests b (List.mem_cons_of_mem _ hb)) fun b hb => hbodies b (List.mem_cons_of_mem _ hb)
    unfold emitBranches evaluatedTests
    cases condition.known? with
    | none =>
      refine Evaluates.bind ?_ fun _ => hrest
      unfold emitBranch
      exact hcondition.andThen fun _ => .behind fun _ => .behind fun _ => .behind fun _ => evaluates_extending
    | some known =>
      cases known with
      | false => exact hrest
      | true => exact evaluates_extending

/-- What a statement evaluates itself is evaluated when it is emitted. -/
theorem evaluates_emitStmt {returns : Ty} {stmt : Stmt} (h : stmt.Typed Γ returns) :
    Evaluates Γ stmt.evaluated (emitStmt stmt) := by
  have hextending := (emits_emitStmt stmt h).toExtending
  obtain ⟨kind, span, dead⟩ := stmt
  unfold emitStmt at hextending ⊢
  unfold Stmt.evaluated
  cases kind with
  | declare id value =>
    cases h with
    | declare _ hvalue =>
      cases value with
      | none => exact evaluates_extending
      | some value =>
        unfold emitStmtKind emitDeclare
        exact .behind fun found => (evaluates_emitExpr value (hvalue value rfl).1).before
  | assign target value releasePrior =>
    cases h with
    | assign htarget _ hvalue _ =>
      unfold emitStmtKind emitAssign
      exact (evaluates_emitExpr value hvalue).bind fun _ => (evaluates_emitPlace target htarget).before
  | expr value unused =>
    cases h with
    | expr hvalue =>
      unfold emitStmtKind emitExprStmt
      exact (evaluates_emitExpr value hvalue).before
  | ret value drops =>
    cases h with
    | ret hvalue _ =>
      cases value with
      | none => exact evaluates_extending
      | some value =>
        unfold emitStmtKind emitReturn
        refine Evaluates.before ?_
        rw [map_eq_pure_bind]
        exact (evaluates_emitExpr value (hvalue value rfl).1).before
  | cond branches otherwise =>
    cases h with
    | cond htests hbodies hotherwise =>
      have := (emits_emitOptionalBlock otherwise hotherwise).toExtending
      unfold emitStmtKind
      exact .behind fun done => (evaluates_emitBranches done _ branches (fun b hb => (htests b hb).1) hbodies).before
  | loop id init condition step body exitDrops =>
    cases h with
    | loop hinit htest hstep hbody =>
      cases condition with
      | none => exact evaluates_extending
      | some test =>
        have := (emits_emitOptionalStmt init hinit).toExtending
        have := (emits_emitOptionalStmt step hstep).toExtending
        have := (emits_emitBlock body hbody).toExtending
        unfold emitStmtKind
        exact .behind fun _ => evaluates_emitLoop fun _ _ => evaluates_emitLoopTest (htest test rfl).1
  | brk id drops => exact evaluates_extending
  | cont id drops => exact evaluates_extending
  | scope block => exact evaluates_extending

end Emit

/-- What a statement of a compiled program evaluates stands in the function of its body. -/
theorem compile_evaluates {options : Options} {files : List SourceFile} {c : Context} {compiled : Compilation}
    (h : checkProgram options files = .ok c) (hcompiled : compile options files = .ok compiled) {i : Nat} {body : Body}
    (hbody : c.bodies[i]? = some body) {stmt : Core.Stmt} (hstmt : stmt ∈ body.block.emitted) {e : Core.Expr}
    (he : e ∈ stmt.evaluated) : ∃ f, compiled.module.definitions[i]? = some f ∧
      f.name = (c.global body.function).symbol ∧ ∃ s o t, s.Ready ∧ s.context = c ∧
        t.On ⟨c, f.body.toList, compiled.module.text?⟩ ∧ Emit.emitExpr e s = .ok o t ∧ e.Typed (c.envWith body.locals) := by
  have hc := Session.reachable_checkProgram h
  have htyped := hc.moment.wellTyped.bodies body (Array.mem_of_getElem? hbody)
  obtain ⟨c', hchecked, hmodule⟩ := compile_eq_ok hcompiled
  obtain rfl : c = c' := Except.ok.inj (h.symm.trans hchecked)
  obtain ⟨u, hprogram, hm⟩ := Emit.emitModule_eq_ok hmodule
  obtain ⟨functions, last, hdefined⟩ :=
    Emit.emitted_emitProgram (fun body hbody => (hc.orderly body hbody).nested) hprogram
  obtain ⟨hi, hget⟩ := Array.getElem?_eq_some_iff.mp hbody
  have hif : i < functions.length := hdefined.bodies.length_eq ▸ hi
  have hf : Emit.Emitted c u.builder.strings body functions[i] := hget ▸ hdefined.bodies.get hi hif
  rw [hm]
  obtain ⟨s, t, hs, hcontext, hpage, hrun⟩ := hf.of_mem hdefined.listed htyped hstmt
  obtain ⟨hnode, s₁, o, t₁, hs₁, hemitted, ht₁⟩ :=
    (Emit.evaluates_emitStmt ((Emit.emits_emitBlock body.block htyped.block).typed stmt hstmt)).evaluated hrun e he
  refine ⟨functions[i], ?_, ?_, s₁, o, t₁, hs.later hs₁, hs₁.context.trans hcontext, hpage.before ht₁, hemitted, hnode⟩
  · rw [← Array.getElem?_toList, hdefined.definitions, List.getElem?_append_left hif, List.getElem?_eq_getElem hif]
  · obtain ⟨s₀, reserved, built, hs₀, hbuilt, -, hf⟩ := hf
    rw [hf, ← hs₀]
    exact hbuilt.head

end OwnLang
