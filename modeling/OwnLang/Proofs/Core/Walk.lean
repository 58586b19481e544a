import Mathlib
import OwnLang.Core.Stmt

/-!
# Walks through checked bodies

A walk goes through a body as control may. A condition that is known when compiling has its known
value, and every other one is decided by `choose`, which is asked at each decision anew. A loop may
go on forever, so a walk is cut off when its fuel is used up; `extends_walk` says that with more
fuel it goes on from there, and that one that has come to its end stays the same.

The events of a walk are what happens to locals on it, in the order in which a body is evaluated: an
assignment evaluates its value ahead of its target. What control goes around also counts where it
would give a local a value that has none (`Event.around`). For a jump that is known where it lands,
so until then the walk keeps such locals in `passed`.
-/

namespace OwnLang.Core

/-- What evaluating an expression does with a local. -/
inductive Use where
  /-- The local is read or pointed at. -/
  | read (id : LocalId)
  /-- A consumer takes the unique value of the local. -/
  | move (id : LocalId)
deriving DecidableEq

/-- What happens on a walk. -/
inductive Event where
  | use (use : Use)
  /-- The local is given a value. -/
  | store (id : LocalId)
  /-- The value of the local is freed. -/
  | free (id : LocalId)
  /-- Control has gone around a statement that gives a value to the local, which has none there. -/
  | around (id : LocalId)
  /-- Control is at a statement that is flagged as unreachable. -/
  | dead
deriving DecidableEq

/-- How control leaves a part of a body. -/
inductive Exit where
  | falls
  | returns
  | breaks (target : LoopId)
  | continues (target : LoopId)
  /-- The walk is cut off. -/
  | cut
deriving DecidableEq

/-- The local that a value is taken out of where it is consumed. -/
def Expr.taken? (e : Expr) : Option LocalId :=
  if e.type.shape.isCopyable then none
  else
    match e.place?.map Place.kind with
    | some (.slot id) => some id
    | _ => none

/-! ## Expressions -/

/-- What is done with locals, and how many decisions were taken by the end of it. The argument is
the number of decisions at the start. -/
abbrev Uses : Type := Nat → List Use × Nat

namespace Uses

def none : Uses := fun time => ([], time)

def one (use : Use) : Uses := fun time => ([use], time)

def andThen (first second : Uses) : Uses := fun time =>
  ((first time).1 ++ (second (first time).2).1, (second (first time).2).2)

/-- What is done or left, as is decided. -/
def perhaps (choose : Nat → Bool) (uses : Uses) : Uses := fun time =>
  if choose time then uses (time + 1) else ([], time + 1)

end Uses

section

variable (choose : Nat → Bool)

mutual

/-- The uses of an expression. -/
def Expr.uses : Expr → Uses
  | .mk kind _ _ _ => kind.uses

/-- The uses of an expression whose value is consumed. -/
def Expr.given : Expr → Uses
  | .mk kind type constant span =>
    match (Expr.mk kind type constant span).taken? with
    | some id => .one (.move id)
    | none => kind.uses

/-- The uses of a form of an expression. -/
def ExprKind.uses : ExprKind → Uses
  | .int _ | .bool _ | .str _ | .function _ => .none
  | .load place | .address place => place.uses
  | .call callee args => callee.uses.andThen (givenOf args)
  | .macroCall _ args => givenOf args
  | .binary op left right =>
    left.uses.andThen (if op.isLogical then .perhaps choose right.uses else right.uses)
  | .unary _ operand => operand.uses
  | .cast value _ => value.uses
  | .extract base _ => base.uses
  | .structInit _ values _ | .arrayInit _ values _ => givenOf values
  | .arrayFill _ size value _ => size.uses.andThen value.uses
  | .new value => value.given

/-- The uses of a location. -/
def Place.uses : Place → Uses
  | .mk kind _ _ _ => kind.uses

/-- The uses of a form of a location. -/
def PlaceKind.uses : PlaceKind → Uses
  | .slot id => .one (.read id)
  | .global _ => .none
  | .deref pointer => pointer.uses
  | .field base _ _ => base.uses
  | .element data index => data.uses.andThen index.uses

/-- The uses of values that are consumed one after the other. -/
def givenOf : List Expr → Uses
  | [] => .none
  | e :: rest => e.given.andThen (givenOf rest)

end

/-- The uses of a value that is consumed, if there is one. -/
def givenOption : Option Expr → Uses
  | none => .none
  | some e => e.given choose

/-- The uses of a location that is written. -/
def Place.target (place : Place) : Uses :=
  match place.kind with
  | .slot _ => .none
  | _ => place.uses choose

end

/-! ## What control goes around -/

/-- The local that a statement declares. -/
def Stmt.declared? (s : Stmt) : Option LocalId :=
  match s.kind with
  | .declare id _ => some id
  | _ => none

/-- The locals that the header of a loop declares. -/
def headerLocals (init step : Option Stmt) : List LocalId :=
  (init.bind Stmt.declared?).toList ++ (step.bind Stmt.declared?).toList

/-- The local that an assignment gives a value to, if it has none. -/
def Place.revived (place : Place) (releasePrior : Bool) : List LocalId :=
  match place.kind with
  | .slot id => if releasePrior || place.type.shape.isCopyable then [] else [id]
  | _ => []

mutual

/-- The locals that a statement gives a value to where they have none. Those that are declared in its
own blocks are left out. -/
def Stmt.revivals : Stmt → List LocalId
  | .mk kind _ _ => kind.revivals

/-- The revivals of a form of a statement. -/
def StmtKind.revivals : StmtKind → List LocalId
  | .declare id _ => [id]
  | .assign target _ releasePrior => target.revived releasePrior
  | .cond branches otherwise => branchRevivals branches ++ otherwiseRevivals otherwise
  | .loop _ init _ step body _ =>
    (optionalRevivals init ++ body.revivals ++ optionalRevivals step).filter
      (· ∉ headerLocals init step)
  | .scope block => block.revivals
  | _ => []

/-- The revivals of a block. -/
def Block.revivals : Block → List LocalId
  | .mk stmts _ => (revivalsOf stmts).filter (· ∉ stmts.filterMap Stmt.declared?)

/-- The revivals of statements, those of locals that they declare included. -/
def revivalsOf : List Stmt → List LocalId
  | [] => []
  | s :: rest => s.revivals ++ revivalsOf rest

/-- The revivals of branches with conditions. -/
def branchRevivals : List (Expr × Block) → List LocalId
  | [] => []
  | (_, body) :: rest => body.revivals ++ branchRevivals rest

/-- The revivals of a branch without a condition. -/
def otherwiseRevivals : Option Block → List LocalId
  | none => []
  | some body => body.revivals

/-- The revivals of a statement that may be missing. -/
def optionalRevivals : Option Stmt → List LocalId
  | none => []
  | some s => s.revivals

end

/-! ## Walks -/

/-- A walk through a part of a body. -/
structure Walk where
  events : List Event
  exit : Exit
  /-- What a jump that has not landed yet goes around. -/
  passed : List LocalId
  /-- How many decisions were taken. -/
  time : Nat

/-- Uses, what happens behind them, and where control goes then. -/
def Uses.ending (uses : Uses) (events : List Event) (exit : Exit) (time : Nat) : Walk :=
  ⟨(uses time).1.map .use ++ events, exit, [], (uses time).2⟩

namespace Walk

/-- A walk with what happens in front of it. -/
def after (events : List Event) (w : Walk) : Walk := { w with events := events ++ w.events }

/-- A walk through a part that stands in front of others or beside them, which control goes around
unless it returns. -/
def passing (ids : List LocalId) (w : Walk) : Walk :=
  match w.exit with
  | .falls => { w with events := w.events ++ ids.map .around }
  | .breaks _ | .continues _ => { w with passed := w.passed ++ ids }
  | .returns | .cut => w

/-- A walk through the scope of locals: once a jump leaves it, it does not matter what they hold. -/
def within (ids : List LocalId) (w : Walk) : Walk := { w with passed := w.passed.filter (· ∉ ids) }

/-- A walk that goes on with `next` unless it jumps around it. -/
def andThen (ids : List LocalId) (w : Walk) (next : Nat → Walk) : Walk :=
  match w.exit with
  | .falls => (next w.time).after w.events
  | _ => w.passing ids

/-- A walk through a part of a loop, with what follows where control falls through, where it
continues the loop and where it leaves it. The jumps of other loops go around `ids`. -/
def inLoop (loop : LoopId) (ids : List LocalId) (w : Walk) (falls next leave : Nat → Walk) : Walk :=
  match w.exit with
  | .falls => (falls w.time).after w.events
  | .continues target =>
    if target = loop then (next w.time).after (w.events ++ w.passed.map .around)
    else w.passing ids
  | .breaks target =>
    if target = loop then (leave w.time).after (w.events ++ (w.passed ++ ids).map .around)
    else w.passing ids
  | _ => w

end Walk

/-- Whether a condition holds, and the number of decisions behind it. -/
def Expr.holds (choose : Nat → Bool) (condition : Expr) (time : Nat) : Bool × Nat :=
  match condition.known? with
  | some value => (value, time)
  | none => (choose time, time + 1)

/-- A condition, and the walk that it decides between. -/
def Expr.decide (choose : Nat → Bool) (condition : Expr) (taken other : Nat → Walk) (time : Nat) :
    Walk :=
  let (uses, time) := condition.uses choose time
  let (holds, time) := condition.holds choose time
  (if holds then taken time else other time).after (uses.map .use)

/-- The parts of a loop behind its header. -/
structure Loop where
  id : LoopId
  condition : Option Expr
  step : Option Stmt
  body : Block
  exitDrops : List LocalId

/-- Where a loop is left: it frees what its header owns. -/
def Loop.left (loop : Loop) (time : Nat) : Walk := ⟨loop.exitDrops.map .free, .falls, [], time⟩

/-- The parts of a body that walks go through. -/
inductive Part where
  | stmt (s : Stmt)
  | kind (kind : StmtKind)
  | optional (s : Option Stmt)
  | stmts (stmts : List Stmt)
  | block (block : Block)
  | branches (branches : List (Expr × Block)) (otherwise : Option Block)
  /-- A loop from its test on; `again` tells that it was gone through before. -/
  | test (loop : Loop) (again : Bool)
  /-- A loop from its step on. -/
  | step (loop : Loop)

/-- The walk through a part with some fuel, from a number of decisions on. Statements that are
flagged are passed over if `skip`. -/
def walk (skip : Bool) (choose : Nat → Bool) : Nat → Part → Nat → Walk
  | 0, _, time => ⟨[], .cut, [], time⟩
  | n + 1, .stmt s, time =>
    if s.unreachable then
      if skip then ⟨[.dead], .falls, [], time⟩
      else (walk skip choose n (.kind s.kind) time).after [.dead]
    else walk skip choose n (.kind s.kind) time
  | _ + 1, .kind (.declare id value), time =>
    (givenOption choose value).ending [.store id] .falls time
  | _ + 1, .kind (.assign target value releasePrior), time =>
    let stored := match target.kind with
      | .slot id => (if releasePrior then [.free id] else []) ++ [.store id]
      | _ => []
    ((value.given choose).andThen (target.target choose)).ending stored .falls time
  | _ + 1, .kind (.expr value _), time => (value.uses choose).ending [] .falls time
  | _ + 1, .kind (.ret value drops), time =>
    (givenOption choose value).ending (drops.map .free) .returns time
  | _ + 1, .kind (.brk target drops), time => ⟨drops.map .free, .breaks target, [], time⟩
  | _ + 1, .kind (.cont target drops), time => ⟨drops.map .free, .continues target, [], time⟩
  | n + 1, .kind (.cond branches otherwise), time =>
    walk skip choose n (.branches branches otherwise) time
  | n + 1, .kind (.loop id init condition step body exitDrops), time =>
    let loop : Loop := ⟨id, condition, step, body, exitDrops⟩
    ((walk skip choose n (.optional init) time).andThen (body.revivals ++ optionalRevivals step)
      (walk skip choose n (.test loop false))).within (headerLocals init step)
  | n + 1, .kind (.scope block), time => walk skip choose n (.block block) time
  | _ + 1, .optional none, time => ⟨[], .falls, [], time⟩
  | n + 1, .optional (some s), time => walk skip choose n (.stmt s) time
  | _ + 1, .stmts [], time => ⟨[], .falls, [], time⟩
  | n + 1, .stmts (s :: rest), time =>
    (walk skip choose n (.stmt s) time).andThen (revivalsOf rest) (walk skip choose n (.stmts rest))
  | n + 1, .block block, time =>
    ((walk skip choose n (.stmts block.stmts) time).andThen [] fun time =>
      ⟨block.drops.map .free, .falls, [], time⟩).within (block.stmts.filterMap Stmt.declared?)
  | _ + 1, .branches [] none, time => ⟨[], .falls, [], time⟩
  | n + 1, .branches [] (some body), time => walk skip choose n (.block body) time
  | n + 1, .branches ((condition, body) :: rest) otherwise, time =>
    condition.decide choose
      (fun time => (walk skip choose n (.block body) time).passing
        (branchRevivals rest ++ otherwiseRevivals otherwise))
      (fun time => (walk skip choose n (.branches rest otherwise) time).after
        (body.revivals.map .around))
      time
  | n + 1, .test loop again, time =>
    let passed := loop.body.revivals ++ optionalRevivals loop.step
    let taken time := (walk skip choose n (.block loop.body) time).inLoop loop.id
      (optionalRevivals loop.step) (walk skip choose n (.step loop)) (walk skip choose n (.step loop))
      loop.left
    let other time := (loop.left time).after (if again then [] else passed.map .around)
    match loop.condition with
    | none => taken time
    | some condition => condition.decide choose taken other time
  | n + 1, .step loop, time =>
    (walk skip choose n (.optional loop.step) time).inLoop loop.id []
      (walk skip choose n (.test loop true)) (walk skip choose n (.step loop)) loop.left

/-- The walk through a function's body. -/
def Block.walk (skip : Bool) (choose : Nat → Bool) (block : Block) (fuel : Nat) : Walk :=
  Core.walk skip choose fuel (.block block) 0

/-! ## More fuel -/

namespace Walk

/-- A walk, and one that is cut off later or not at all. -/
structure Extends (v w : Walk) : Prop where
  events : v.events <+: w.events
  ended : v.exit ≠ .cut → w = v

theorem Extends.refl (w : Walk) : w.Extends w := ⟨List.prefix_rfl, fun _ => rfl⟩

theorem Extends.trans {u v w : Walk} (h : u.Extends v) (h' : v.Extends w) : u.Extends w where
  events := h.events.trans h'.events
  ended hu := by
    obtain rfl := h.ended hu
    exact h'.ended hu

variable {v w : Walk}

theorem extends_cut (time : Nat) (w : Walk) : (⟨[], .cut, [], time⟩ : Walk).Extends w :=
  ⟨List.nil_prefix, fun h => absurd rfl h⟩

theorem Extends.after (h : v.Extends w) (events : List Event) :
    (v.after events).Extends (w.after events) where
  events := (List.prefix_append_right_inj events).mpr h.events
  ended hv := by rw [h.ended hv]

theorem Extends.within (h : v.Extends w) (ids : List LocalId) :
    (v.within ids).Extends (w.within ids) where
  events := h.events
  ended hv := by rw [h.ended hv]

theorem events_passing (ids : List LocalId) (w : Walk) : w.events <+: (w.passing ids).events := by
  unfold passing
  split
  · exact List.prefix_append _ _
  all_goals exact List.prefix_rfl

theorem events_andThen (ids : List LocalId) (w : Walk) (next : Nat → Walk) :
    w.events <+: (w.andThen ids next).events := by
  unfold andThen
  split
  · exact List.prefix_append _ _
  · exact events_passing ids w

theorem events_inLoop (loop : LoopId) (ids : List LocalId) (w : Walk) (falls next leave : Nat → Walk) :
    w.events <+: (w.inLoop loop ids falls next leave).events := by
  have hafter (events : List Event) (u : Walk) : w.events <+: (u.after (w.events ++ events)).events :=
    (List.prefix_append _ _).trans (List.prefix_append _ _)
  unfold inLoop
  split
  · exact List.prefix_append _ _
  · split
    · exact hafter _ _
    · exact events_passing ids w
  · split
    · exact hafter _ _
    · exact events_passing ids w
  · exact List.prefix_rfl

theorem Extends.passing (h : v.Extends w) (ids : List LocalId) :
    (v.passing ids).Extends (w.passing ids) := by
  by_cases hv : v.exit = .cut
  · have hcut : v.passing ids = v := by
      unfold Walk.passing
      rw [hv]
    rw [hcut]
    exact ⟨h.events.trans (events_passing ids w), fun hne => absurd hv hne⟩
  · rw [h.ended hv]
    exact .refl _

theorem Extends.andThen (h : v.Extends w) (ids : List LocalId) {next next' : Nat → Walk}
    (hnext : ∀ time, (next time).Extends (next' time)) :
    (v.andThen ids next).Extends (w.andThen ids next') := by
  by_cases hv : v.exit = .cut
  · have hcut : v.andThen ids next = v := by
      unfold Walk.andThen Walk.passing
      rw [hv]
    rw [hcut]
    exact ⟨h.events.trans (events_andThen ids w next'), fun hne => absurd hv hne⟩
  · rw [h.ended hv]
    unfold Walk.andThen
    split
    · exact (hnext _).after _
    · exact .refl _

theorem Extends.inLoop (h : v.Extends w) (loop : LoopId) (ids : List LocalId)
    {falls falls' next next' : Nat → Walk} (leave : Nat → Walk)
    (hfalls : ∀ time, (falls time).Extends (falls' time))
    (hnext : ∀ time, (next time).Extends (next' time)) :
    (v.inLoop loop ids falls next leave).Extends (w.inLoop loop ids falls' next' leave) := by
  by_cases hv : v.exit = .cut
  · have hcut : v.inLoop loop ids falls next leave = v := by
      unfold Walk.inLoop
      rw [hv]
    rw [hcut]
    exact ⟨h.events.trans (events_inLoop loop ids w _ _ _), fun hne => absurd hv hne⟩
  · rw [h.ended hv]
    unfold Walk.inLoop
    split
    · exact (hfalls _).after _
    · split
      · exact (hnext _).after _
      · exact .refl _
    · exact .refl _
    · exact .refl _

end Walk

section

variable {choose : Nat → Bool}

theorem extends_decide (condition : Expr) {taken taken' other other' : Nat → Walk}
    (htaken : ∀ time, (taken time).Extends (taken' time))
    (hother : ∀ time, (other time).Extends (other' time)) (time : Nat) :
    (condition.decide choose taken other time).Extends
      (condition.decide choose taken' other' time) := by
  unfold Expr.decide
  dsimp only
  refine Walk.Extends.after ?_ _
  split
  · exact htaken _
  · exact hother _

theorem extends_walk_succ (skip : Bool) (n : Nat) (part : Part) (time : Nat) :
    (walk skip choose n part time).Extends (walk skip choose (n + 1) part time) := by
  induction n generalizing part time with
  | zero => exact Walk.extends_cut _ _
  | succ n ih =>
    cases part with
    | stmt s =>
      simp only [walk]
      split
      · split
        · exact .refl _
        · exact (ih _ _).after _
      · exact ih _ _
    | kind kind =>
      cases kind with
      | declare id value => exact .refl _
      | assign target value releasePrior => exact .refl _
      | expr value release => exact .refl _
      | ret value drops => exact .refl _
      | brk target drops => exact .refl _
      | cont target drops => exact .refl _
      | cond branches otherwise => exact ih _ _
      | loop id init condition step body exitDrops =>
        exact ((ih _ _).andThen _ (ih _)).within _
      | scope block => exact ih _ _
    | optional s =>
      cases s with
      | none => exact .refl _
      | some s => exact ih _ _
    | stmts stmts =>
      cases stmts with
      | nil => exact .refl _
      | cons s rest => exact (ih _ _).andThen _ (ih _)
    | block block => exact ((ih _ _).andThen _ fun _ => .refl _).within _
    | branches branches otherwise =>
      cases branches with
      | nil =>
        cases otherwise with
        | none => exact .refl _
        | some body => exact ih _ _
      | cons branch rest =>
        exact extends_decide _ (fun _ => (ih _ _).passing _) (fun _ => (ih _ _).after _) _
    | test loop again =>
      have htaken (time : Nat) :=
        (ih (.block loop.body) time).inLoop loop.id (optionalRevivals loop.step) loop.left
          (ih (.step loop)) (ih (.step loop))
      simp only [walk]
      split
      · exact htaken time
      · exact extends_decide _ htaken (fun _ => .refl _) time
    | step loop => exact (ih _ _).inLoop _ _ _ (ih _) (ih _)

/-- With more fuel a walk goes on from where it was cut off. -/
theorem extends_walk (skip : Bool) {n m : Nat} (h : n ≤ m) (part : Part) (time : Nat) :
    (walk skip choose n part time).Extends (walk skip choose m part time) := by
  induction m, h using Nat.le_induction with
  | base => exact .refl _
  | succ m _ ih => exact ih.trans (extends_walk_succ skip m part time)

end

end OwnLang.Core
