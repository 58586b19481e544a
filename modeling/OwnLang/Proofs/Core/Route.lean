import OwnLang.Proofs.Core.Walk

/-!
# Routes

A route is a list of decisions. It leads a walk from any number of decisions on, so that routes can be
put together. A walk `Finds` a goal if some route brings it there: to an exit, or to a statement that is
flagged as unreachable. What a part of a body finds is then known from what its parts find, without the
fuel and the decisions of a whole walk.
-/

namespace OwnLang.Core

/-- The decisions from `time` on begin with those of a route. -/
def Agrees (choose : Nat → Bool) (time : Nat) (route : List Bool) : Prop :=
  ∀ (i : Nat) (b : Bool), route[i]? = some b → choose (time + i) = b

theorem Agrees.append {choose : Nat → Bool} {time : Nat} {first second : List Bool}
    (h : Agrees choose time (first ++ second)) :
    Agrees choose time first ∧ Agrees choose (time + first.length) second := by
  refine ⟨fun i b hi => ?_, fun i b hi => ?_⟩
  · obtain ⟨hlt, -⟩ := List.getElem?_eq_some_iff.mp hi
    exact h i b (by rwa [List.getElem?_append_left hlt])
  · rw [Nat.add_assoc]
    exact h _ b (by rwa [List.getElem?_append_right (Nat.le_add_right _ _), Nat.add_sub_cancel_left])

theorem Agrees.head {choose : Nat → Bool} {time : Nat} {b : Bool} {route : List Bool}
    (h : Agrees choose time (b :: route)) : choose time = b ∧ Agrees choose (time + 1) route := by
  have h' : Agrees choose time ([b] ++ route) := h
  exact ⟨h 0 b rfl, h'.append.2⟩

/-! ## Uses -/

/-- Uses take a number of decisions that a route knows. -/
def Timed (uses : (Nat → Bool) → Uses) : Prop :=
  ∃ route : List Bool, ∀ choose time, Agrees choose time route →
    (uses choose time).2 = time + route.length

namespace Timed

variable {first second : (Nat → Bool) → Uses}

theorem none : Timed fun _ => .none := ⟨[], fun _ _ _ => rfl⟩

theorem one (use : Use) : Timed fun _ => .one use := ⟨[], fun _ _ _ => rfl⟩

theorem andThen (h : Timed first) (h' : Timed second) :
    Timed fun choose => (first choose).andThen (second choose) := by
  obtain ⟨route, hroute⟩ := h
  obtain ⟨route', hroute'⟩ := h'
  refine ⟨route ++ route', fun choose time hagrees => ?_⟩
  obtain ⟨ha, ha'⟩ := hagrees.append
  rw [← hroute choose time ha] at ha'
  show (second choose (first choose time).2).2 = _
  rw [hroute' _ _ ha', hroute choose time ha, List.length_append, Nat.add_assoc]

theorem perhaps (uses : (Nat → Bool) → Uses) : Timed fun choose => .perhaps choose (uses choose) := by
  refine ⟨[false], fun choose time hagrees => ?_⟩
  show (if choose time then uses choose (time + 1) else ([], time + 1)).2 = _
  rw [hagrees.head.1]
  rfl

end Timed

mutual

theorem timed_uses : ∀ e : Expr, Timed fun choose => e.uses choose
  | .mk kind _ _ _ => timed_kindUses kind

theorem timed_given : ∀ e : Expr, Timed fun choose => e.given choose
  | .mk kind type constant span => by
    unfold Expr.given
    split
    · exact .one _
    · exact timed_kindUses kind

theorem timed_kindUses : ∀ kind : ExprKind, Timed fun choose => kind.uses choose
  | .int _ | .bool _ | .str _ | .function _ => .none
  | .load place | .address place => timed_placeUses place
  | .call callee args => (timed_uses callee).andThen (timed_givenOf args)
  | .macroCall _ args => timed_givenOf args
  | .binary op left right => by
    refine Timed.andThen (timed_uses left) ?_
    split
    · exact .perhaps _
    · exact timed_uses right
  | .unary _ operand => timed_uses operand
  | .cast value _ => timed_uses value
  | .extract base _ => timed_uses base
  | .structInit _ values _ | .arrayInit _ values _ => timed_givenOf values
  | .arrayFill _ size value _ => (timed_uses size).andThen (timed_uses value)
  | .new value => timed_given value

theorem timed_placeUses : ∀ place : Place, Timed fun choose => place.uses choose
  | .mk kind _ _ _ => timed_placeKindUses kind

theorem timed_placeKindUses : ∀ kind : PlaceKind, Timed fun choose => kind.uses choose
  | .slot _ => .one _
  | .global _ => .none
  | .deref pointer => timed_uses pointer
  | .field base _ _ => timed_uses base
  | .element data index => (timed_uses data).andThen (timed_uses index)

theorem timed_givenOf : ∀ values : List Expr, Timed fun choose => givenOf choose values
  | [] => .none
  | e :: rest => (timed_given e).andThen (timed_givenOf rest)

end

theorem timed_givenOption : ∀ value : Option Expr, Timed fun choose => givenOption choose value
  | none => .none
  | some e => timed_given e

theorem timed_target (place : Place) : Timed fun choose => place.target choose := by
  unfold Place.target
  split
  · exact .none
  · exact timed_placeUses place

/-! ## Goals -/

/-- What a walk may come to. -/
inductive Goal where
  | leaves (exit : Exit)
  /-- A statement that is flagged as unreachable. -/
  | dead

/-- A walk that takes decisions up to a number comes to a goal. -/
def Goal.Met (w : Walk) (last : Nat) : Goal → Prop
  | .leaves exit => w.exit = exit ∧ w.time = last
  | .dead => Event.dead ∈ w.events

/-- Nothing that a walk with more events comes to is lost. -/
theorem Goal.Met.mono {goal : Goal} {v w : Walk} {last : Nat} (h : goal.Met w last)
    (hexit : v.exit = w.exit) (htime : v.time = w.time) (hevents : w.events ⊆ v.events) :
    goal.Met v last := by
  cases goal with
  | leaves exit => exact ⟨hexit.trans h.1, htime.trans h.2⟩
  | dead => exact @hevents .dead h

theorem Goal.Met.after {goal : Goal} {w : Walk} {last : Nat} (h : goal.Met w last)
    (events : List Event) : goal.Met (w.after events) last :=
  h.mono rfl rfl (List.subset_append_right _ _)

theorem Goal.Met.passing {goal : Goal} {w : Walk} {last : Nat} (h : goal.Met w last)
    (ids : List LocalId) : goal.Met (w.passing ids) last := by
  refine h.mono ?_ ?_ (Walk.events_passing ids w).subset <;> unfold Walk.passing <;> split <;> rfl

/-- A part of a walk, from a number of decisions on. -/
abbrev Walker : Type := (Nat → Bool) → Nat → Walk

/-- Some route leads to a goal. -/
def Walker.Finds (w : Walker) (goal : Goal) : Prop :=
  ∃ route : List Bool, ∀ choose time, Agrees choose time route →
    goal.Met (w choose time) (time + route.length)

namespace Walker

variable {v w next : Walker} {goal : Goal} {exit : Exit}

theorem Finds.mono (h : w.Finds goal)
    (hv : ∀ choose time last, goal.Met (w choose time) last → goal.Met (v choose time) last) :
    v.Finds goal := by
  obtain ⟨route, hroute⟩ := h
  exact ⟨route, fun choose time ha => hv _ _ _ (hroute choose time ha)⟩

/-- A walk that goes on with another one where its first part ends. -/
theorem Finds.chain (h : w.Finds (.leaves exit)) (h' : next.Finds goal)
    (hv : ∀ choose time last, (w choose time).exit = exit →
      goal.Met (next choose (w choose time).time) last → goal.Met (v choose time) last) :
    v.Finds goal := by
  obtain ⟨route, hroute⟩ := h
  obtain ⟨route', hroute'⟩ := h'
  refine ⟨route ++ route', fun choose time ha => ?_⟩
  obtain ⟨hfirst, hsecond⟩ := ha.append
  obtain ⟨hexit, htime⟩ := hroute choose time hfirst
  rw [← htime] at hsecond
  have hmet := hroute' choose _ hsecond
  rw [htime, Nat.add_assoc, ← List.length_append, ← htime] at hmet
  exact hv choose time _ hexit hmet

theorem Finds.andThen (h : w.Finds (.leaves .falls)) (h' : next.Finds goal) (ids : List LocalId) :
    Finds (fun choose time => (w choose time).andThen ids (next choose)) goal :=
  h.chain h' fun choose time last hexit hmet => by
    rw [Walk.andThen, hexit]
    exact hmet.after _

/-- What a first part comes to that it does not fall out of. -/
theorem Finds.first (h : w.Finds goal) (hgoal : goal ≠ .leaves .falls) (ids : List LocalId) :
    Finds (fun choose time => (w choose time).andThen ids (next choose)) goal :=
  h.mono fun choose time last hmet => by
    unfold Walk.andThen
    cases hexit : (w choose time).exit with
    | falls =>
      cases goal with
      | leaves exit => exact absurd (congrArg Goal.leaves (hmet.1.symm.trans hexit)) hgoal
      | dead =>
        have hdead : Event.dead ∈ (w choose time).events := hmet
        exact List.mem_append_left _ hdead
    | _ => exact hmet.passing ids

theorem Finds.within (h : w.Finds goal) (ids : List LocalId) :
    Finds (fun choose time => (w choose time).within ids) goal :=
  h.mono fun _ _ _ hmet => hmet.mono rfl rfl (List.Subset.refl _)

/-- A condition that can hold, or can fail to, leads to the part that it decides for. -/
theorem Finds.decide {taken other : Walker} (condition : Expr) (holds : Bool)
    (hknown : condition.known? ≠ some !holds) (h : Finds (if holds then taken else other) goal) :
    Finds (fun choose => condition.decide choose (taken choose) (other choose)) goal := by
  obtain ⟨uses, huses⟩ := timed_uses condition
  obtain ⟨route, hroute⟩ := h
  have hdecide {choose : Nat → Bool} {time behind last : Nat} (hfirst : Agrees choose time uses)
      (hholds : condition.holds choose (time + uses.length) = (holds, behind))
      (hmet : goal.Met ((if holds then taken else other) choose behind) last) :
      goal.Met (condition.decide choose (taken choose) (other choose) time) last := by
    have htime : (condition.uses choose time).2 = time + uses.length := huses choose time hfirst
    show goal.Met (let held := condition.holds choose (condition.uses choose time).2
      Walk.after ((condition.uses choose time).1.map .use)
        (if held.1 then taken choose held.2 else other choose held.2)) last
    rw [htime, hholds]
    cases holds <;> exact hmet.after _
  cases hcondition : condition.known? with
  | some known =>
    have hsame : known = holds := by
      rw [hcondition] at hknown
      cases known <;> cases holds <;> simp_all
    refine ⟨uses ++ route, fun choose time ha => ?_⟩
    obtain ⟨hfirst, hsecond⟩ := ha.append
    rw [List.length_append, ← Nat.add_assoc]
    exact hdecide hfirst (by rw [Expr.holds, hcondition, hsame]) (hroute choose _ hsecond)
  | none =>
    refine ⟨uses ++ holds :: route, fun choose time ha => ?_⟩
    obtain ⟨hfirst, hsecond⟩ := ha.append
    obtain ⟨hchoice, hthird⟩ := hsecond.head
    have hlast : time + uses.length + 1 + route.length = time + (uses ++ holds :: route).length := by
      rw [List.length_append, List.length_cons]
      omega
    rw [← hlast]
    exact hdecide hfirst (by rw [Expr.holds, hcondition, hchoice]) (hroute choose _ hthird)

section

variable {falls continued leave : Walker} (loop : LoopId) (ids : List LocalId)

theorem Finds.inLoop_falls (h : w.Finds (.leaves .falls)) (hnext : falls.Finds goal) :
    Finds (fun choose time => (w choose time).inLoop loop ids (falls choose) (continued choose)
      (leave choose)) goal :=
  h.chain hnext fun choose time last hexit hmet => by
    rw [Walk.inLoop, hexit]
    exact hmet.after _

theorem Finds.inLoop_continues (h : w.Finds (.leaves (.continues loop)))
    (hnext : continued.Finds goal) :
    Finds (fun choose time => (w choose time).inLoop loop ids (falls choose) (continued choose)
      (leave choose)) goal :=
  h.chain hnext fun choose time last hexit hmet => by
    simp only [Walk.inLoop, hexit, if_true]
    exact hmet.after _

theorem Finds.inLoop_breaks (h : w.Finds (.leaves (.breaks loop))) (hnext : leave.Finds goal) :
    Finds (fun choose time => (w choose time).inLoop loop ids (falls choose) (continued choose)
      (leave choose)) goal :=
  h.chain hnext fun choose time last hexit hmet => by
    simp only [Walk.inLoop, hexit, if_true]
    exact hmet.after _

/-- What a part of a loop comes to that does not belong to the loop. -/
theorem Finds.inLoop_first (h : w.Finds goal)
    (hgoal : ∀ exit, goal = .leaves exit →
      exit ≠ .falls ∧ exit ≠ .continues loop ∧ exit ≠ .breaks loop) :
    Finds (fun choose time => (w choose time).inLoop loop ids (falls choose) (continued choose)
      (leave choose)) goal :=
  h.mono fun choose time last hmet => by
    cases goal with
    | dead =>
      have hdead : Event.dead ∈ (w choose time).events := hmet
      exact (Walk.events_inLoop loop ids _ _ _ _).subset hdead
    | leaves exit =>
      obtain ⟨hfalls, hcontinues, hbreaks⟩ := hgoal exit rfl
      have hexit : (w choose time).exit = exit := hmet.1
      unfold Walk.inLoop
      cases exit with
      | falls => exact absurd rfl hfalls
      | continues target =>
        rw [hexit]
        dsimp only
        rw [if_neg fun heq => hcontinues (congrArg Exit.continues heq)]
        exact hmet.passing ids
      | breaks target =>
        rw [hexit]
        dsimp only
        rw [if_neg fun heq => hbreaks (congrArg Exit.breaks heq)]
        exact hmet.passing ids
      | returns =>
        rw [hexit]
        exact hmet
      | cut =>
        rw [hexit]
        exact hmet

end

end Walker

/-! ## Parts of bodies -/

/-- The walk through a part with some fuel. -/
def Part.walker (part : Part) (n : Nat) : Walker := fun choose => walk false choose n part

/-- A walk through a part comes to a goal, if it has fuel enough. -/
def Part.Finds (part : Part) (goal : Goal) : Prop :=
  ∃ n, ∀ m, n ≤ m → (part.walker m).Finds goal

namespace Part

variable {goal : Goal}

/-- One round of fuel is for the part itself. -/
theorem finds_succ {part : Part} {n : Nat} (h : ∀ m, n ≤ m → (part.walker (m + 1)).Finds goal) :
    part.Finds goal := by
  refine ⟨n + 1, fun m hm => ?_⟩
  obtain ⟨m, rfl⟩ := Nat.exists_eq_add_of_le' hm
  exact h (m + n) (Nat.le_add_left n m)

/-- A part that comes to what another one comes to. -/
theorem finds_of {part part' : Part} {goal' : Goal} (h : part'.Finds goal')
    (hpart : ∀ m, (part'.walker m).Finds goal' → (part.walker (m + 1)).Finds goal) :
    part.Finds goal := by
  obtain ⟨n, hn⟩ := h
  exact finds_succ fun m hm => hpart m (hn m hm)

/-- A part that goes through two parts. -/
theorem finds_of_both {part part' part'' : Part} {exit : Exit} (h : part'.Finds (.leaves exit))
    (h' : part''.Finds goal) (hpart : ∀ m, (part'.walker m).Finds (.leaves exit) →
      (part''.walker m).Finds goal → (part.walker (m + 1)).Finds goal) : part.Finds goal := by
  obtain ⟨n, hn⟩ := h
  obtain ⟨n', hn'⟩ := h'
  exact finds_succ (n := max n n') fun m hm => hpart m (hn m (by omega)) (hn' m (by omega))

theorem finds_ending {part : Part} {uses : (Nat → Bool) → Uses} (h : Timed uses) (events : List Event)
    (exit : Exit) (hpart : ∀ m choose time,
      walk false choose (m + 1) part time = (uses choose).ending events exit time) :
    part.Finds (.leaves exit) := by
  obtain ⟨route, hroute⟩ := h
  refine finds_succ (n := 0) fun m _ => ⟨route, fun choose time ha => ?_⟩
  have hwalk : part.walker (m + 1) choose time = (uses choose).ending events exit time :=
    hpart m choose time
  rw [hwalk]
  exact ⟨rfl, hroute choose time ha⟩

/-! ### Statements -/

theorem finds_declare (id : LocalId) (value : Option Expr) :
    (Part.kind (.declare id value)).Finds (.leaves .falls) :=
  finds_ending (timed_givenOption value) _ _ fun _ _ _ => rfl

theorem finds_assign (target : Place) (value : Expr) (releasePrior : Bool) :
    (Part.kind (.assign target value releasePrior)).Finds (.leaves .falls) :=
  finds_ending ((timed_given value).andThen (timed_target target)) _ _ fun _ _ _ => rfl

theorem finds_expr (value : Expr) (unused : Bool) :
    (Part.kind (.expr value unused)).Finds (.leaves .falls) :=
  finds_ending (timed_uses value) _ _ fun _ _ _ => rfl

theorem finds_ret (value : Option Expr) (drops : List LocalId) :
    (Part.kind (.ret value drops)).Finds (.leaves .returns) :=
  finds_ending (timed_givenOption value) _ _ fun _ _ _ => rfl

theorem finds_brk (target : LoopId) (drops : List LocalId) :
    (Part.kind (.brk target drops)).Finds (.leaves (.breaks target)) :=
  finds_ending .none (drops.map .free) _ fun _ _ _ => rfl

theorem finds_cont (target : LoopId) (drops : List LocalId) :
    (Part.kind (.cont target drops)).Finds (.leaves (.continues target)) :=
  finds_ending .none (drops.map .free) _ fun _ _ _ => rfl

theorem finds_cond {branches : List (Expr × Block)} {otherwise : Option Block}
    (h : (Part.branches branches otherwise).Finds goal) :
    (Part.kind (.cond branches otherwise)).Finds goal := finds_of h fun _ => id

theorem finds_scope {block : Block} (h : (Part.block block).Finds goal) :
    (Part.kind (.scope block)).Finds goal := finds_of h fun _ => id

theorem finds_stmt {s : Stmt} (h : (Part.kind s.kind).Finds goal) : (Part.stmt s).Finds goal :=
  finds_of h fun m hm => hm.mono fun choose time last hmet => by
    have hwalk : goal.Met (if s.unreachable then (walk false choose m (.kind s.kind) time).after [.dead]
        else walk false choose m (.kind s.kind) time) last := by
      split
      · exact hmet.after _
      · exact hmet
    exact hwalk

/-- A statement that is flagged is dead where control comes to it. -/
theorem dead_of_flag {s : Stmt} (h : s.unreachable = true) : (Part.stmt s).Finds .dead := by
  refine finds_succ (n := 0) fun m _ => ⟨[], fun choose time _ => ?_⟩
  show Event.dead ∈ (if s.unreachable then (walk false choose m (.kind s.kind) time).after [.dead]
    else walk false choose m (.kind s.kind) time).events
  rw [h]
  exact List.mem_cons_self

theorem finds_optional_none : (Part.optional none).Finds (.leaves .falls) :=
  finds_ending .none [] _ fun _ _ _ => rfl

theorem finds_optional {s : Stmt} (h : (Part.stmt s).Finds goal) :
    (Part.optional (some s)).Finds goal := finds_of h fun _ => id

theorem finds_nil : (Part.stmts []).Finds (.leaves .falls) :=
  finds_ending .none [] _ fun _ _ _ => rfl

theorem finds_head {s : Stmt} {rest : List Stmt} (h : (Part.stmt s).Finds goal)
    (hgoal : goal ≠ .leaves .falls) : (Part.stmts (s :: rest)).Finds goal :=
  finds_of h fun _ hm => hm.first hgoal _

theorem finds_tail {s : Stmt} {rest : List Stmt} (h : (Part.stmt s).Finds (.leaves .falls))
    (hrest : (Part.stmts rest).Finds goal) : (Part.stmts (s :: rest)).Finds goal :=
  finds_of_both h hrest fun _ hm hm' => hm.andThen hm' _

theorem finds_block {block : Block} (h : (Part.stmts block.stmts).Finds goal) :
    (Part.block block).Finds goal := by
  have hdrops : Walker.Finds (fun _ time => ⟨block.drops.map .free, .falls, [], time⟩)
      (.leaves .falls) := ⟨[], fun _ _ _ => ⟨rfl, rfl⟩⟩
  refine finds_of h fun m hm => Walker.Finds.within ?_ _
  by_cases hgoal : goal = .leaves .falls
  · subst hgoal
    exact hm.andThen hdrops []
  · exact hm.first hgoal []

/-! ### Branches -/

theorem finds_branches_none : (Part.branches [] none).Finds (.leaves .falls) :=
  finds_ending .none [] _ fun _ _ _ => rfl

theorem finds_otherwise {body : Block} (h : (Part.block body).Finds goal) :
    (Part.branches [] (some body)).Finds goal := finds_of h fun _ => id

section

variable {condition : Expr} {body : Block} {rest : List (Expr × Block)} {otherwise : Option Block}

theorem finds_taken (hknown : condition.known? ≠ some false) (h : (Part.block body).Finds goal) :
    (Part.branches ((condition, body) :: rest) otherwise).Finds goal :=
  finds_of h fun _ hm => Walker.Finds.decide condition true hknown <|
    hm.mono fun _ _ _ hmet => hmet.passing _

theorem finds_other (hknown : condition.known? ≠ some true)
    (h : (Part.branches rest otherwise).Finds goal) :
    (Part.branches ((condition, body) :: rest) otherwise).Finds goal :=
  finds_of h fun _ hm => Walker.Finds.decide condition false hknown <|
    hm.mono fun _ _ _ hmet => hmet.after _

end

/-! ### Loops -/

section

variable {loop : Loop} {again : Bool}

theorem finds_left (loop : Loop) : Walker.Finds (fun _ => loop.left) (.leaves .falls) :=
  ⟨[], fun _ _ _ => ⟨rfl, rfl⟩⟩

/-- A loop whose condition may fail is left. -/
theorem finds_failed {condition : Expr} (hloop : loop.condition = some condition)
    (hknown : condition.known? ≠ some true) : (Part.test loop again).Finds (.leaves .falls) := by
  refine finds_succ (n := 0) fun m _ => ?_
  unfold walker
  simp only [walk, hloop]
  exact Walker.Finds.decide condition false hknown <|
    (finds_left loop).mono fun _ _ _ hmet => hmet.after _

/-- A loop whose condition may hold goes on with its body. -/
theorem finds_held (hloop : ∀ c, loop.condition = some c → c.known? ≠ some false) (m : Nat)
    (h : Walker.Finds (fun choose time => (walk false choose m (.block loop.body) time).inLoop loop.id
      (optionalRevivals loop.step) (walk false choose m (.step loop))
      (walk false choose m (.step loop)) loop.left) goal) :
    ((Part.test loop again).walker (m + 1)).Finds goal := by
  unfold walker
  cases hcondition : loop.condition with
  | none =>
    simp only [walk, hcondition]
    exact h
  | some condition =>
    simp only [walk, hcondition]
    exact Walker.Finds.decide condition true (hloop condition hcondition) h

/-- What control comes to in the body of a loop. -/
theorem finds_body (hloop : ∀ c, loop.condition = some c → c.known? ≠ some false)
    (h : (Part.block loop.body).Finds goal)
    (hgoal : ∀ exit, goal = .leaves exit →
      exit ≠ .falls ∧ exit ≠ .continues loop.id ∧ exit ≠ .breaks loop.id) :
    (Part.test loop again).Finds goal :=
  finds_of h fun m hm => finds_held hloop m (hm.inLoop_first _ _ hgoal)

/-- A body that breaks its loop. -/
theorem finds_broken (hloop : ∀ c, loop.condition = some c → c.known? ≠ some false)
    (h : (Part.block loop.body).Finds (.leaves (.breaks loop.id))) :
    (Part.test loop again).Finds (.leaves .falls) :=
  finds_of h fun m hm => finds_held hloop m (hm.inLoop_breaks _ _ (finds_left loop))

/-- What control comes to in the step behind the body of a loop. -/
theorem finds_behind (hloop : ∀ c, loop.condition = some c → c.known? ≠ some false) {exit : Exit}
    (h : (Part.block loop.body).Finds (.leaves exit)) (hexit : exit = .falls ∨ exit = .continues loop.id)
    (hstep : (Part.step loop).Finds goal) : (Part.test loop again).Finds goal :=
  finds_of_both h hstep fun m hm hm' => finds_held hloop m <| by
    rcases hexit with rfl | rfl
    · exact hm.inLoop_falls _ _ hm'
    · exact hm.inLoop_continues _ _ hm'

/-- What control comes to in the step of a loop. -/
theorem finds_step (h : (Part.optional loop.step).Finds goal)
    (hgoal : ∀ exit, goal = .leaves exit →
      exit ≠ .falls ∧ exit ≠ .continues loop.id ∧ exit ≠ .breaks loop.id) :
    (Part.step loop).Finds goal :=
  finds_of h fun _ hm => hm.inLoop_first _ _ hgoal

/-- A step that breaks its loop. -/
theorem finds_stepBroken (h : (Part.optional loop.step).Finds (.leaves (.breaks loop.id))) :
    (Part.step loop).Finds (.leaves .falls) :=
  finds_of h fun _ hm => hm.inLoop_breaks _ _ (finds_left loop)

/-- What control comes to behind the step of a loop. -/
theorem finds_again (h : (Part.optional loop.step).Finds (.leaves .falls))
    (htest : (Part.test loop true).Finds goal) : (Part.step loop).Finds goal :=
  finds_of_both h htest fun _ hm hm' => hm.inLoop_falls _ _ hm'

theorem finds_stepContinues (h : (Part.optional loop.step).Finds (.leaves (.continues loop.id)))
    (hstep : (Part.step loop).Finds goal) : (Part.step loop).Finds goal :=
  finds_of_both h hstep fun _ hm hm' => hm.inLoop_continues _ _ hm'

end

section

variable {id : LoopId} {init : Option Stmt} {condition : Option Expr} {step : Option Stmt}
  {body : Block} {exitDrops : List LocalId}

/-- What control comes to in a loop behind its header. -/
theorem finds_loop (h : (Part.optional init).Finds (.leaves .falls))
    (htest : (Part.test ⟨id, condition, step, body, exitDrops⟩ false).Finds goal) :
    (Part.kind (.loop id init condition step body exitDrops)).Finds goal :=
  finds_of_both h htest fun _ hm hm' => (hm.andThen hm' _).within _

/-- What control comes to in the header of a loop. -/
theorem finds_init (h : (Part.optional init).Finds goal) (hgoal : goal ≠ .leaves .falls) :
    (Part.kind (.loop id init condition step body exitDrops)).Finds goal :=
  finds_of h fun _ hm => (hm.first hgoal _).within _

end

end Part

end OwnLang.Core
