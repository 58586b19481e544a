import OwnLang.Proofs.Core.Typing
import OwnLang.Proofs.Emit.SimulateValue
import OwnLang.Proofs.Exec.Route

/-!
# Executing emitted statements

The code of every kind of statement has the effects of executing it, and control leaves the code as it
leaves the statement (`simulates_emitBlock`): it is at the end of what was emitted, the function has
returned, or it jumps to a label of a loop around the statement.

Statements that are flagged as unreachable have no code. That they are not executed is a hypothesis
here: no route comes to one of them.
-/

namespace OwnLang

open Ir (Line Label Operand Ref)
open Exec
open OwnLang.Core (Stmt StmtKind Block Part)

namespace Stage

variable {V : Type} {g : Stage V} {s t u : Emitter} {p q : Point V} {n k : Nat}
  {around : List LoopId}

/-! ## Exits -/

variable (g) in
/-- Where control is behind a statement inside the loops `around` it, whose emission began in `s`. -/
def Exits (around : List LoopId) (s t : Emitter) (n : Nat) (q : Point V) (falls : Prop) :
    Exit V → Prop
  | .falls => falls
  | .returns value => g.Before t n q ∧ g.code.next q = .returned value
  | .breaks id =>
    id ∈ around ∧ ∃ labels, s.loops.lookup id = some labels ∧ g.Jumps t n labels.breakTo q
  | .continues id =>
    id ∈ around ∧ ∃ labels, s.loops.lookup id = some labels ∧ g.Jumps t n labels.continueTo q

theorem Exits.imp {falls falls' : Prop} {exit : Exit V} (h : g.Exits around s t n q falls exit)
    (hfalls : falls → falls') : g.Exits around s t n q falls' exit := by
  cases exit with
  | falls => exact hfalls h
  | _ => exact h

/-- More is emitted, which control jumps over if it has left. -/
theorem Exits.over {around' : List LoopId} {s' : Emitter} {falls falls' : Prop} {exit : Exit V}
    (h : g.Exits around s t n q falls exit) (hfalls : exit = .falls → falls → falls')
    (hbefore : g.Before t n q → g.Before u k q)
    (hloops : ∀ id, id ∈ around → (exit = .breaks id ∨ exit = .continues id) →
      id ∈ around' ∧ s'.loops.lookup id = s.loops.lookup id) :
    g.Exits around' s' u k q falls' exit := by
  cases exit with
  | falls => exact hfalls rfl h
  | returns value => exact ⟨hbefore h.1, h.2⟩
  | breaks id =>
    obtain ⟨hid, labels, hlabels, hjump⟩ := h
    obtain ⟨hid', hsame⟩ := hloops id hid (.inl rfl)
    exact ⟨hid', labels, hsame.trans hlabels, hbefore hjump.1, hjump.2⟩
  | continues id =>
    obtain ⟨hid, labels, hlabels, hjump⟩ := h
    obtain ⟨hid', hsame⟩ := hloops id hid (.inr rfl)
    exact ⟨hid', labels, hsame.trans hlabels, hbefore hjump.1, hjump.2⟩

/-- What an execution ends with is what the simulation relates it to. -/
theorem Simulates.ran {α β : Type} {e : Emit α} {a : Action V β}
    {post : Emitter → Point V → α → β → Prop} (h : g.Simulates s p e a post) :
    g.Simulates s p e a fun t q r b => post t q r b ∧ a p.effects = .done b q.effects := by
  intro r t he ht
  have hout := h he ht
  unfold Outcome at hout ⊢
  cases ha : a p.effects with
  | cut effects =>
    rw [ha] at hout
    exact hout
  | done b effects =>
    rw [ha] at hout
    obtain ⟨k, q, hreach, heffects, hkept, hq⟩ := hout
    exact ⟨k, q, hreach, heffects, hkept, hq, by rw [heffects]⟩

/-- A part that is emitted behind one that control may have left. -/
theorem simulates_andThen {e : Emit Unit} {f : Unit → Emit Unit} {a b : Action V (Exit V)}
    {m : Nat} (he : Emit.Growing (· ∈ around) k e) (hf : Emit.Growing (· ∈ around) m (f ()))
    (hs : s.builder.function.isSome = true)
    (h : g.Simulates s p e a fun t q _ exit =>
      g.Exits around s t (n + k) q (g.At t (n + k) q) exit)
    (hnext : ∀ t q, g.At t (n + k) q → a p.effects = .done .falls q.effects →
      g.Simulates t q (f ()) b fun u q _ exit =>
        g.Exits around t u (n + (k + m)) q (g.At u (n + (k + m)) q) exit) :
    g.Simulates s p (e >>= f) (Activation.andThen a b) fun u q _ exit =>
      g.Exits around s u (n + (k + m)) q (g.At u (n + (k + m)) q) exit := by
  refine .chain he.extending (fun _ => hf.extending) hs h.ran fun r t q exit ht _ hq => ?_
  obtain ⟨hexits, hran⟩ := hq
  have hloops (id : LoopId) (hid : id ∈ around) : s.loops.lookup id = t.loops.lookup id :=
    ((he.grows ht).loops id hid).symm
  by_cases hexit : exit = .falls
  · subst hexit
    refine (hnext t q hexits hran).mono fun _ u q' exit' _ hexits' => ?_
    cases exit' with
    | falls => exact hexits'
    | _ => exact hexits'.over nofun id fun id hid _ => ⟨hid, hloops id hid⟩
  · have hover {u : Emitter} (hu : f () t = .ok () u) :
        g.Exits around s u (n + (k + m)) q (g.At u (n + (k + m)) q) exit :=
      hexits.over (fun heq => absurd heq hexit) (fun hbefore => Nat.add_assoc n k m ▸ hbefore.grow (hf.grows hu))
        fun id hid _ => ⟨hid, rfl⟩
    cases exit with
    | falls => exact absurd rfl hexit
    | _ => exact .stay fun _ _ hu _ => hover hu

/-! ## Simple statements -/

theorem denotes_zero (type : Ty) : g.Denotes s p (g.x.program.zeroOf type) (g.x.zeroOf type) := by
  unfold Context.zeroOf Activation.zeroOf
  cases type.shape with
  | array element access size =>
    cases size <;> exact denotes_fixed fun _ h => by cases h
  | _ => exact denotes_fixed fun _ h => by cases h

theorem simulates_emitDeclare (h : g.At s n p) (id : LocalId) (value : Option Core.Expr) :
    g.Simulates s p (Emit.emitDeclare id value) (g.x.execKind n (.declare id value))
      fun t q _ exit => g.Exits around s t (n + Core.cellsOfOption value) q
        (g.At t (n + Core.cellsOfOption value) q) exit := by
  unfold Emit.emitDeclare Activation.execKind
  cases value with
  | none =>
    refine .seq h.isOpen (simulates_slot h id) fun (address, type) t q _ _ hq => ?_
    obtain ⟨⟨hat, haddress⟩, rfl⟩ := hq
    simp only [pure_bind]
    refine .skip hat.program ?_
    exact (simulates_store hat (denotes_zero _) haddress).map fun _ _ _ _ hat' => hat'
  | some value =>
    refine .seq h.isOpen (simulates_slot h id) fun (address, type) t q _ _ hq => ?_
    obtain ⟨⟨hat, haddress⟩, rfl⟩ := hq
    refine .bind hat.isOpen (simulates_emitExpr value hat) fun content u q' v _ hl hv => ?_
    exact (simulates_store hv.1 hv.2 (haddress.after hat hl hv.1)).map fun _ _ _ _ hat' => hat'

theorem simulates_emitAssign (h : g.At s n p) (target : Core.Place) (value : Core.Expr)
    (releasePrior : Bool) :
    g.Simulates s p (Emit.emitAssign target value releasePrior)
      (g.x.execKind n (.assign target value releasePrior))
      fun t q _ exit => g.Exits around s t (n + (value.cells + target.cells)) q
        (g.At t (n + (value.cells + target.cells)) q) exit := by
  unfold Emit.emitAssign Activation.execKind
  rw [← Nat.add_assoc]
  refine .bind h.isOpen (simulates_emitExpr value h) fun content t q v _ _ hv => ?_
  refine .bind hv.1.isOpen (simulates_emitPlace target hv.1) fun address u q' a _ hl ha => ?_
  have hv' := hv.2.after hv.1 hl ha.1
  cases releasePrior with
  | true =>
    refine .skip (ha.1.irType _) ?_
    refine .bind ha.1.isOpen (simulates_load ha.1 ha.2 _) fun prior w q'' b _ hl' hprior => ?_
    refine .bind hprior.1.isOpen (simulates_release _ hprior.1 hprior.2)
      fun _ w' q₃ _ _ hl₃ hat => ?_
    have hlater := hl'.trans hl₃
    exact (simulates_store hat (hv'.after ha.1 hlater hat) (ha.2.after ha.1 hlater hat)).map
      fun _ _ _ _ hat' => hat'
  | false => exact (simulates_store ha.1 hv' ha.2).map fun _ _ _ _ hat' => hat'

theorem simulates_emitExprStmt (h : g.At s n p) (value : Core.Expr) (unused : Bool) :
    g.Simulates s p (Emit.emitExprStmt value unused) (g.x.execKind n (.expr value unused))
      fun t q _ exit => g.Exits around s t (n + value.cells) q (g.At t (n + value.cells) q) exit := by
  unfold Emit.emitExprStmt Activation.execKind
  refine .bind h.isOpen (simulates_emitExpr value h) fun result t q v _ _ hv => ?_
  cases unused with
  | true => exact (simulates_release _ hv.1 hv.2).map fun _ _ _ _ hat => hat
  | false => exact .pure hv.1

theorem simulates_emitReturn (h : g.At s n p) (value : Option Core.Expr) (drops : List LocalId) :
    g.Simulates s p (Emit.emitReturn value drops) (g.x.execKind n (.ret value drops))
      fun t q _ exit => g.Exits around s t (n + Core.cellsOfOption value) q
        (g.At t (n + Core.cellsOfOption value) q) exit := by
  have hleave {t : Emitter} {q : Point V} {m : Nat} {result : Option Operand}
      {v : Option (Datum V)} (hat : g.At t m q) (hv : Option.Rel (g.Denotes t q) result v) :
      g.Simulates t q (do
          Emit.dropLocals drops
          Emit.build (Ir.Build.ret result))
        (g.x.leaving drops (.returns (v.filter (!·.type.isVoid))))
        fun u q' _ exit => g.Exits around s u m q' (g.At u m q') exit := by
    unfold Activation.leaving
    refine .bind hat.isOpen (simulates_dropLocals drops hat) fun _ u q' _ _ hl hat' => ?_
    have hv' : Option.Rel (g.Denotes u q') result v := by
      cases hv with
      | none => exact .none
      | some hv => exact .some (hv.after hat hl hat')
    exact (simulates_ret hat' hv').returning.mono fun _ _ _ _ _ hq => hq.2 ▸ hq.1
  unfold Emit.emitReturn Activation.execKind
  cases value with
  | none =>
    refine .skip rfl ?_
    exact hleave h .none
  | some value =>
    simp only [map_eq_pure_bind, bind_assoc, pure_bind]
    exact .bind h.isOpen (simulates_emitExpr value h) fun result t q v _ _ hv =>
      hleave hv.1 (.some hv.2)

theorem loopLabels_eq_ok {id : LoopId} {labels : LoopLabels}
    (h : Emit.loopLabels id s = .ok labels t) : s.loops.lookup id = some labels ∧ t = s := by
  obtain ⟨u, s', hu, hr⟩ := Run.bind_eq_ok.mp h
  cases hu
  cases hfound : s.loops.lookup id with
  | none =>
    rw [hfound] at hr
    cases hr
  | some found =>
    rw [hfound] at hr
    cases hr
    exact ⟨rfl, rfl⟩

theorem simulates_emitJump (h : g.At s n p) {id : LoopId} (drops : List LocalId) {label : LoopLabels → Label} {exit : Exit V}
    (hexit : ∀ t q labels, s.loops.lookup id = some labels → g.Jumps t n (label labels) q →
      g.Exits around s t n q (g.At t n q) exit) :
    g.Simulates s p (Emit.emitJump id drops label) (g.x.leaving drops exit)
      fun t q _ exit => g.Exits around s t n q (g.At t n q) exit := by
  unfold Emit.emitJump Activation.leaving
  refine .around h.isOpen fun labels t hlabels => ?_
  obtain ⟨hlookup, rfl⟩ := loopLabels_eq_ok hlabels
  refine .bind h.isOpen (simulates_dropLocals drops h) fun _ u q _ _ _ hat => ?_
  exact (simulates_br hat _).returning.mono fun _ _ _ _ _ hq => hq.2 ▸ hexit _ _ _ hlookup hq.1

/-- The value of a condition that is known. -/
theorem eval_known {x : Activation V} (cell : Nat) {test : Core.Expr} {known : Bool}
    (hknown : test.known? = some known) (hbool : test.type.shape = .bool) :
    x.eval cell test = Pure.pure (x.constant (.bool known) test.type) := by
  obtain ⟨kind, type, constant, span⟩ := test
  have hconstant : constant = some (.bool known) := by
    have hbind : constant.bind Const.bool? = some known := hknown
    obtain ⟨value, rfl, hvalue⟩ := Option.bind_eq_some_iff.mp hbind
    cases value <;> cases hvalue
    rfl
  have hshape : type.shape = .bool := hbool
  have hliteral : Emit.literal? type constant = some (.bool known) := by
    unfold Emit.literal?
    rw [hconstant, hshape]
  unfold Activation.eval
  rw [hliteral]
  rfl

/-- Where control goes for a loop's condition. -/
theorem simulates_emitLoopTest (h : g.At s n p) {condition : Option Core.Expr}
    (hbool : ∀ test, condition = some test → test.type.shape = .bool) (first done : Label) :
    g.Simulates s p (Emit.emitLoopTest condition first done) (g.x.loopTest n condition)
      fun t q _ holds => g.Jumps t (n + Core.testCells condition) (if holds then first else done) q := by
  unfold Emit.emitLoopTest Activation.loopTest Core.testCells
  cases condition with
  | none =>
    refine (simulates_br h first).returning.mono fun _ _ _ _ _ hq => ?_
    obtain ⟨hjump, rfl⟩ := hq
    exact hjump
  | some test =>
    have hcond {t : Emitter} {q : Point V} {m : Nat} {value : Operand} {v : Datum V}
        (hv : g.Value m t q value v) {holds : Bool} (hholds : g.x.machine.truth v.value = holds) :
        g.Simulates t q (Emit.build (Ir.Build.condBr value first done)) (Pure.pure holds)
          fun t q _ holds => g.Jumps t m (if holds then first else done) q :=
      (simulates_condBr hv.1 hv.2 first done).returning.mono fun _ _ _ _ _ hq => by
        obtain ⟨⟨hjump, -⟩, rfl⟩ := hq
        rwa [hholds] at hjump
    dsimp only
    cases hknown : test.known? with
    | none =>
      rw [if_neg (by simp), if_neg (by simp)]
      exact .bind h.isOpen (simulates_emitExpr test h) fun value t q v _ _ hv => hcond hv rfl
    | some known =>
      cases known with
      | true =>
        rw [if_pos rfl, if_pos rfl]
        refine (simulates_br h first).returning.mono fun _ _ _ _ _ hq => ?_
        obtain ⟨hjump, rfl⟩ := hq
        exact hjump
      | false =>
        rw [if_neg (by simp), if_neg (by simp)]
        have htest := simulates_emitExpr test h
        rw [eval_known n hknown (hbool test rfl)] at htest
        exact .seq h.isOpen htest fun value t q _ _ hv => hcond hv (g.x.machine.truth_bool false)

/-! ## Branches -/

end Stage

theorem Emit.loops_build {α : Type} {step : Ir.Build α} {s t : Emitter} {r : α}
    (h : build step s = .ok r t) : t.loops = s.loops := by
  cases h
  rfl

/-- What is emitted behind the body of a branch. -/
def Emit.closeBranch (done otherwise : Label) : Emit Unit := do
  if !(← isTerminated) then
    build (Ir.Build.br done)
  build (Ir.Build.placeLabel otherwise)

theorem Emit.emitBranch_eq (condition : Core.Expr) (body : Emit Unit) (done : Label) :
    emitBranch condition body done = (do
      let value ← emitExpr condition
      let taken ← build Ir.Build.newLabel
      let otherwise ← build Ir.Build.newLabel
      build (Ir.Build.condBr value taken otherwise)
      build (Ir.Build.placeLabel taken)
      body
      closeBranch done otherwise) := rfl

instance (done otherwise : Label) : Emit.Extending (Emit.closeBranch done otherwise) := by
  unfold Emit.closeBranch
  dsimp only
  infer_instance

namespace Stage

variable {V : Type} {g : Stage V} {s t u : Emitter} {p q : Point V} {n k : Nat}
  {around : List LoopId}

theorem Before.closeBranch (h : g.Before s n p) {done otherwise : Label} {r : Unit}
    (he : Emit.closeBranch done otherwise s = .ok r t) : g.Before t n p := by
  obtain ⟨closed, s', hclosed, he⟩ := Run.bind_eq_ok.mp he
  cases hclosed
  split at he
  · obtain ⟨_, t', hbr, he⟩ := Run.bind_eq_ok.mp he
    have hgrows : s.Grows (fun _ => False) 0 t' := Emit.Growing.grows hbr
    exact (h.grow hgrows).jumped he
  · exact h.jumped he

/-- A body that control falls through goes on behind the branches. -/
theorem simulates_closed (h : g.At s n p) (done otherwise : Label) :
    g.Simulates s p (Emit.closeBranch done otherwise) (Pure.pure ())
      fun t q _ _ => g.Jumps t n done q := by
  unfold Emit.closeBranch
  refine .skip rfl ?_
  rw [h.opened]
  refine .seq h.isOpen (simulates_br h done) fun _ t q _ _ hj => ?_
  exact .stay fun _ u he _ => ⟨hj.1.jumped he, hj.2⟩

/-- A branch that is not taken goes on with the others. -/
theorem simulates_missed (h : g.Jumps s n (.numbered k) p) (hk : k ≤ s.builder.labels) (done : Label) :
    g.Simulates s p (Emit.closeBranch done (.numbered k)) (Pure.pure ())
      fun t q _ _ => g.At t n q := by
  unfold Emit.closeBranch
  refine .skip rfl ?_
  dsimp only
  split
  · exact .over h fun _ t ht hj => (simulates_placeLabel (.inr hj) (hk.trans ht)).mono
      fun _ _ _ _ _ hq => hq.1
  · exact (simulates_placeLabel (.inr h) hk).mono fun _ _ _ _ _ hq => hq.1

/-- A branch that is taken if its condition holds. -/
theorem simulates_emitBranch (h : g.At s n p) (condition : Core.Expr) {body : Emit Unit} {m : Nat}
    (hbody : Emit.Growing (· ∈ around) m body) {run : Action V (Exit V)}
    (hrun : ∀ t q, g.At t (n + condition.cells) q →
      g.Simulates t q body run fun u q' _ exit => g.Exits around t u (n + condition.cells + m) q'
        (g.At u (n + condition.cells + m) q') exit) (done : Label) :
    g.Simulates s p (Emit.emitBranch condition body done)
      (do
        let value ← g.x.eval n condition
        if g.x.machine.truth value.value then some <$> run else return none)
      fun t q _ left => match left with
        | none => g.At t (n + condition.cells + m) q
        | some exit => g.Exits around s t (n + condition.cells + m) q
            (g.Jumps t (n + condition.cells + m) done q) exit := by
  have hbody' := hbody.extending
  rw [Emit.emitBranch_eq]
  refine .bind h.isOpen (simulates_emitExpr condition h) fun value t q v ht hl hv => ?_
  refine .newLabel (.newLabel ?_)
  have hat := hv.1.relabeled.relabeled
  refine .seq hat.isOpen (simulates_condBr hat hv.2.relabeled.relabeled _ _) fun _ u q' hu hl' hj => ?_
  have htaken : t.builder.labels + 1 ≤ u.builder.labels := (Nat.le_succ _).trans hl'.labels
  by_cases htruth : g.x.machine.truth v.value = true
  · rw [if_pos htruth] at hj ⊢
    refine .seq hj.1.1.isOpen (simulates_placeLabel (.inr hj.1) htaken) fun _ w q₁ hw _ hq₁ => ?_
    have hgrows : s.Grows (· ∈ around) condition.cells t := Emit.Growing.grows ht
    have hloops (id : LoopId) (hid : id ∈ around) : s.loops.lookup id = w.loops.lookup id := by
      rw [Emit.loops_build hw, Emit.loops_build hu]
      exact (hgrows.loops id hid).symm
    rw [map_eq_pure_bind]
    refine .bind hq₁.1.isOpen (hrun w q₁ hq₁.1) fun _ w' q₂ exit _ _ hexits => ?_
    by_cases hexit : exit = .falls
    · subst hexit
      exact (simulates_closed hexits done _).returning.mono fun _ _ _ _ _ hq => hq.2 ▸ hq.1
    · exact .stay fun _ _ he _ => hexits.over (fun heq => absurd heq hexit) (fun hbefore => hbefore.closeBranch he)
        fun id hid _ => ⟨hid, hloops id hid⟩
  · rw [if_neg htruth] at hj ⊢
    refine .overLabel hj.1 fun w hw hj => .around hj.1.isOpen fun _ w' hw' => ?_
    have hlabels : w.builder.labels ≤ w'.builder.labels := (hbody.grows hw').builder.labels
    exact (simulates_missed (hj.grow (hbody.grows hw')) ((hl'.labels.trans hw).trans hlabels)
      done).returning.mono fun _ _ _ _ _ hq => hq.2 ▸ hq.1

end Stage

/-! ## Loops -/

/-- What is emitted of a loop for its test and its body. -/
def Emit.emitHead (condition : Option Core.Expr) (body : Emit Unit) (first done : Label) :
    Emit Unit := do
  emitLoopTest condition first done
  build (Ir.Build.placeLabel first)
  body

/-- What is emitted of a loop for its step. -/
def Emit.emitTail (step : Emit Unit) (check : Label) : Emit Unit := do
  step
  build (Ir.Build.br check)

/-- What is emitted of a loop for its rounds. -/
def Emit.emitRounds (condition : Option Core.Expr) (body step : Emit Unit)
    (check first next done : Label) : Emit Unit := do
  build (Ir.Build.placeLabel check)
  emitHead condition body first done
  build (Ir.Build.placeLabel next)
  emitTail step check

theorem Emit.emitLoop_eq (id : LoopId) (condition : Option Core.Expr) (body step : Emit Unit)
    (exitDrops : List LocalId) :
    emitLoop id condition body step exitDrops = (do
      let check ← build Ir.Build.newLabel
      let first ← build Ir.Build.newLabel
      let next ← build Ir.Build.newLabel
      let done ← build Ir.Build.newLabel
      enterLoop id { continueTo := next, breakTo := done }
      emitRounds condition body step check first next done
      build (Ir.Build.placeLabel done)
      dropLocals exitDrops) := by
  simp only [emitLoop, emitRounds, emitHead, emitTail, bind_assoc]

theorem Emit.extending_emitHead (condition : Option Core.Expr) {body : Emit Unit}
    (hbody : Extending body) (first done : Label) :
    Extending (emitHead condition body first done) := by
  unfold emitHead
  infer_instance

theorem Emit.extending_emitTail {step : Emit Unit} (hstep : Extending step) (check : Label) :
    Extending (emitTail step check) := by
  unfold emitTail
  infer_instance

theorem Emit.extending_emitRounds (condition : Option Core.Expr) {body step : Emit Unit}
    (hbody : Extending body) (hstep : Extending step) (check first next done : Label) :
    Extending (emitRounds condition body step check first next done) := by
  have := extending_emitHead condition hbody first done
  have := extending_emitTail hstep check
  unfold emitRounds
  infer_instance

instance (id : LoopId) (labels : LoopLabels) : Emit.Extending (Emit.enterLoop id labels) where
  kept h := by
    cases h
    exact ⟨rfl, rfl, .refl _⟩

/-- The loops around a loop have the labels that they had. -/
theorem Emit.loops_emitHead {keep : LoopId → Prop} {n : Nat} {condition : Option Core.Expr}
    {body : Emit Unit} (hbody : Growing keep n body) {first done : Label} {s t : Emitter} {r : Unit}
    (h : emitHead condition body first done s = .ok r t) (id : LoopId) (hid : keep id) :
    t.loops.lookup id = s.loops.lookup id := by
  obtain ⟨_, s₁, htest, h⟩ := Run.bind_eq_ok.mp h
  obtain ⟨_, s₂, hplace, h⟩ := Run.bind_eq_ok.mp h
  have hgrows : s.Grows keep (Core.testCells condition) s₁ := Growing.grows htest
  rw [(hbody.grows h).loops id hid, loops_build hplace, hgrows.loops id hid]

namespace Stage

variable {V : Type} {g : Stage V} {s t u : Emitter} {p q : Point V} {n k : Nat}
  {around : List LoopId}

variable (g) in
/-- Where control is behind a part of a loop: another part comes next, or the loop is left. -/
def Turns (around : List LoopId) (labels : LoopLabels) (behind : Phase) (s t : Emitter) (n : Nat)
    (q : Point V) (falls : Prop) : Phase ⊕ Exit V → Prop
  | .inl phase => phase = behind ∧ falls ∨ phase = .step ∧ g.Jumps t n labels.continueTo q
  | .inr exit => g.Exits around s t n q (g.Jumps t n labels.breakTo q) exit

/-- What leaves a part of a loop turns to another part or leaves the loop. -/
theorem Exits.inLoop {id : LoopId} {labels : LoopLabels} {falls : Prop} {exit : Exit V}
    (h : g.Exits (id :: around) s t n q falls exit) (hlabels : s.loops.lookup id = some labels)
    (behind : Phase) :
    g.Turns around labels behind s t n q falls (Activation.inLoop id behind exit) := by
  rcases Activation.inLoop_cases id behind exit with
    ⟨rfl, heq⟩ | ⟨rfl, heq⟩ | ⟨rfl, heq⟩ | ⟨haway, heq⟩ <;> rw [heq]
  · exact .inl ⟨rfl, h⟩
  · obtain ⟨-, found, hfound, hjump⟩ := h
    obtain rfl := Option.some.inj (hlabels.symm.trans hfound)
    exact .inr ⟨rfl, hjump⟩
  · obtain ⟨-, found, hfound, hjump⟩ := h
    obtain rfl := Option.some.inj (hlabels.symm.trans hfound)
    exact hjump
  · have houter {target : LoopId} (hmem : target ∈ id :: around) (hne : target ≠ id) :
        target ∈ around := (List.mem_cons.mp hmem).resolve_left hne
    cases exit with
    | falls => exact absurd rfl haway.1
    | returns value => exact h
    | breaks target => exact ⟨houter h.1 fun heq => haway.2.2 (heq ▸ rfl), h.2⟩
    | continues target => exact ⟨houter h.1 fun heq => haway.2.1 (heq ▸ rfl), h.2⟩

section

variable {loop : Core.Loop} {labels : LoopLabels} {m : Nat}

/-- The first part of a round: the test and the body. -/
theorem simulates_emitHead (h : g.At s n p) {body : Emit Unit} {runBody : Action V (Exit V)}
    {first : Nat} (hbool : ∀ test, loop.condition = some test → test.type.shape = .bool)
    (hlabels : s.loops.lookup loop.id = some labels) (hfirst : first ≤ s.builder.labels)
    (hgrow : Emit.Growing (· ∈ loop.id :: around) m body)
    (hbody : ∀ t q, g.At t (n + Core.testCells loop.condition) q →
      (∃ effects, g.x.loopTest n loop.condition p.effects = .done true effects) →
      g.Simulates t q body runBody fun u q' _ exit =>
        g.Exits (loop.id :: around) t u (n + Core.testCells loop.condition + m) q'
          (g.At u (n + Core.testCells loop.condition + m) q') exit)
    (step : Action V (Exit V)) :
    g.Simulates s p (Emit.emitHead loop.condition body (.numbered first) labels.breakTo)
      (Activation.loopRound loop.id (g.x.loopTest n loop.condition) runBody step .test)
      fun t q _ turn => g.Turns around labels .step s t (n + Core.testCells loop.condition + m) q
        (g.At t (n + Core.testCells loop.condition + m) q) turn := by
  have hextending := hgrow.extending
  unfold Emit.emitHead Activation.loopRound
  refine .bind h.isOpen (simulates_emitLoopTest h hbool _ _).ran fun _ t q holds ht hl hq => ?_
  obtain ⟨hjump, hran⟩ := hq
  cases holds with
  | true =>
    rw [if_pos rfl] at hjump ⊢
    refine .seq hjump.1.isOpen (simulates_placeLabel (.inr hjump) (hfirst.trans hl.labels))
      fun _ u q' hu _ hq' => ?_
    have hgrows : s.Grows (· ∈ loop.id :: around) _ t := Emit.Growing.grows ht
    have hloops (id : LoopId) (hid : id ∈ loop.id :: around) :
        u.loops.lookup id = s.loops.lookup id := by
      rw [Emit.loops_build hu, hgrows.loops id hid]
    refine (hbody u q' hq'.1 ⟨_, hran⟩).map fun w q₁ _ exit hexits => ?_
    have hexits' : g.Exits (loop.id :: around) s w (n + Core.testCells loop.condition + m) q₁
        (g.At w (n + Core.testCells loop.condition + m) q₁) exit :=
      hexits.over (fun _ => id) id fun i hi _ => ⟨hi, (hloops i hi).symm⟩
    exact hexits'.inLoop hlabels .step
  | false =>
    rw [if_neg Bool.false_ne_true] at hjump ⊢
    refine .overLabel hjump fun u _ hjump => .stay fun _ _ hu _ => ?_
    exact hjump.grow (hgrow.grows hu)

/-- The second part of a round: the step, and the jump back to the test. -/
theorem simulates_emitTail {step : Emit Unit} {runStep : Action V (Exit V)} (check : Label)
    (hlabels : s.loops.lookup loop.id = some labels)
    (hstep : g.Simulates s p step runStep fun t q _ exit =>
      g.Exits (loop.id :: around) s t (n + k) q (g.At t (n + k) q) exit)
    (hgrow : Emit.Growing (· ∈ loop.id :: around) k step) (hs : s.builder.function.isSome = true)
    (test : Action V Bool) (body : Action V (Exit V)) :
    g.Simulates s p (Emit.emitTail step check)
      (Activation.loopRound loop.id test body runStep .step)
      fun t q _ turn => g.Turns around labels .test s t (n + k) q (g.Jumps t (n + k) check q) turn := by
  have hextending := hgrow.extending
  unfold Emit.emitTail Activation.loopRound
  refine .bind hs hstep fun _ t q exit _ _ hexits => ?_
  by_cases hexit : exit = .falls
  · subst hexit
    refine (simulates_br hexits check).returning.mono fun _ u q' turn _ hq => ?_
    obtain ⟨hjump, rfl⟩ := hq
    exact .inl ⟨rfl, hjump⟩
  · refine .stay fun _ u hu _ => ?_
    have hgrows : t.Grows (· ∈ loop.id :: around) 0 u := Emit.Growing.grows hu
    have hexits' : g.Exits (loop.id :: around) s u (n + k) q (g.Jumps u (n + k) check q) exit :=
      hexits.over (fun heq => absurd heq hexit) (fun hbefore => hbefore.grow hgrows)
        fun i hi _ => ⟨hi, rfl⟩
    exact hexits'.inLoop hlabels .test

variable (g) in
/-- A round begins at the label of its first part, whatever led there. -/
inductive Begins (s : Emitter) (n : Nat) (check : Label) (t : Emitter) (m : Nat) (next : Label) :
    Phase → Point V → Prop
  | test {q : Point V} (h : g.Arrives s n check q) : Begins s n check t m next .test q
  | step {q : Point V} (h : g.Arrives t m next q) : Begins s n check t m next .step q

/-- The rounds of a loop. -/
theorem simulates_emitRounds (h : g.At s n p) {body step : Emit Unit}
    {runBody runStep : Action V (Exit V)} {check first next : Nat} {done : Label}
    (hbool : ∀ test, loop.condition = some test → test.type.shape = .bool)
    (hlabels : s.loops.lookup loop.id = some ⟨.numbered next, done⟩)
    (hcheck : check ≤ s.builder.labels) (hfirst : first ≤ s.builder.labels)
    (hnext : next ≤ s.builder.labels)
    (hgrow : Emit.Growing (· ∈ loop.id :: around) m body)
    (hgrow' : Emit.Growing (· ∈ loop.id :: around) k step)
    (hfollows : Activation.Follows loop (g.x.loopTest n loop.condition) runBody runStep)
    (halive : ¬(Part.test loop false).Finds .dead)
    (hbody : ¬(Part.block loop.body).Finds .dead → ∀ t q,
      g.At t (n + Core.testCells loop.condition) q →
        g.Simulates t q body runBody fun u q' _ exit =>
          g.Exits (loop.id :: around) t u (n + Core.testCells loop.condition + m) q'
            (g.At u (n + Core.testCells loop.condition + m) q') exit)
    (hstep : ¬(Part.optional loop.step).Finds .dead → ∀ t q,
      g.At t (n + Core.testCells loop.condition + m) q →
        g.Simulates t q step runStep fun u q' _ exit =>
          g.Exits (loop.id :: around) t u (n + Core.testCells loop.condition + m + k) q'
            (g.At u (n + Core.testCells loop.condition + m + k) q') exit) :
    g.Simulates s p
      (Emit.emitRounds loop.condition body step (.numbered check) (.numbered first)
        (.numbered next) done)
      (.rounds (Activation.loopRound loop.id (g.x.loopTest n loop.condition) runBody runStep)
        g.x.limit .test)
      fun t q _ exit => g.Exits around s t (n + Core.testCells loop.condition + m + k) q
        (g.Jumps t (n + Core.testCells loop.condition + m + k) done q) exit := by
  intro r t he ht
  obtain ⟨_, s₁, h₁, he⟩ := Run.bind_eq_ok.mp he
  obtain ⟨_, s₂, h₂, he⟩ := Run.bind_eq_ok.mp he
  obtain ⟨_, s₃, h₃, h₄⟩ := Run.bind_eq_ok.mp he
  have hx₁ : s.Extends s₁ := Emit.Extending.kept h₁
  have hx₂ : s₁.Extends s₂ := (Emit.extending_emitHead _ hgrow.extending _ _).kept h₂
  have hx₃ : s₂.Extends s₃ := Emit.Extending.kept h₃
  have hx₄ : s₃.Extends t := (Emit.extending_emitTail hgrow'.extending _).kept h₄
  have ho₁ := extends_fn hx₁ h.isOpen
  have ho₂ := extends_fn hx₂ ho₁.1
  have ho₃ := extends_fn hx₃ ho₂.1
  have hw₃ := ht.back hx₄ ho₃.1
  have hw₂ := hw₃.back hx₃ ho₂.1
  have hw₁ := hw₂.back hx₂ ho₁.1
  have hloops₁ (id : LoopId) : s₁.loops.lookup id = s.loops.lookup id := by
    rw [Emit.loops_build h₁]
  have hloops₃ (id : LoopId) (hmem : id ∈ loop.id :: around) :
      s₃.loops.lookup id = s.loops.lookup id := by
    rw [Emit.loops_build h₃, Emit.loops_emitHead hgrow h₂ id hmem, hloops₁]
  have hpass {q : Point V} (hq : g.Before s₂ (n + Core.testCells loop.condition + m) q) :
      g.Before t (n + Core.testCells loop.condition + m + k) q := by
    obtain ⟨_, s₄, hstep, hbr⟩ := Run.bind_eq_ok.mp h₄
    have hgrows : s₄.Grows (· ∈ around) 0 t := Emit.Growing.grows hbr
    exact ((hq.jumped h₃).grow (hgrow'.grows hstep)).grow hgrows
  let inv (phase : Phase) (q : Point V) : Prop := Activation.Alive loop phase ∧
    g.Begins s n (.numbered check) s₂ (n + Core.testCells loop.condition + m) (.numbered next) phase q
  refine outcome_rounds inv ?_ ⟨⟨false, halive⟩, .test (.inl h)⟩ (Nat.le_refl _)
  rintro phase q - ⟨halive, hbegins⟩
  cases hbegins with
  | test harrives =>
    obtain ⟨j, q₁, hreach, heffects, htemps, -, -, hat⟩ := harrives.lands h₁ hw₁ hcheck
    refine ⟨j, q₁, hreach, heffects, fun i _ => congrFun htemps i, ?_⟩
    have hhead : g.Simulates s₁ q₁ _ _ fun t q _ turn => g.Turns around _ _ s₁ t _ q _ turn :=
      simulates_emitHead hat hbool ((hloops₁ _).trans hlabels) (hfirst.trans hx₁.builder.labels)
        hgrow (fun u q' hat' htest => hbody (halive.bodies hfollows htest.choose_spec) u q' hat')
        runStep
    rw [← heffects]
    refine ((hhead.ran h₂ hw₂).earlier ho₁.2.temps).mono fun q' turn _ hturn => ?_
    obtain ⟨hturn, hran⟩ := hturn
    cases turn with
    | inl after =>
      refine ⟨halive.next hfollows hran, ?_⟩
      rcases hturn with ⟨rfl, hat'⟩ | ⟨rfl, hjump⟩
      · exact .step (.inl hat')
      · exact .step (.inr hjump)
    | inr exit =>
      exact hturn.over (fun _ hjump => ⟨hpass hjump.1, hjump.2⟩) hpass fun i hi _ =>
        ⟨hi, (hloops₁ i).symm⟩
  | step harrives =>
    obtain ⟨j, q₁, hreach, heffects, htemps, -, -, hat⟩ :=
      harrives.lands h₃ hw₃ (hnext.trans (hx₁.trans hx₂).builder.labels)
    refine ⟨j, q₁, hreach, heffects, fun i _ => congrFun htemps i, ?_⟩
    have htail : g.Simulates s₃ q₁ _ _ fun t q _ turn => g.Turns around _ _ s₃ t _ q _ turn :=
      simulates_emitTail (.numbered check) ((hloops₃ _ List.mem_cons_self).trans hlabels)
        (hstep halive.steps s₃ q₁ hat) hgrow' ho₃.1 (g.x.loopTest n loop.condition) runBody
    rw [← heffects]
    have hearlier := ((ho₁.2.trans ho₂.2).trans ho₃.2).temps
    refine ((htail.ran h₄ ht).earlier hearlier).mono fun q' turn _ hturn => ?_
    obtain ⟨hturn, hran⟩ := hturn
    cases turn with
    | inl after =>
      refine ⟨halive.next hfollows hran, ?_⟩
      rcases hturn with ⟨rfl, hjump⟩ | ⟨rfl, hjump⟩
      · exact .test (.inr ⟨h.toBefore.elsewhere hjump.1.cells, hjump.2⟩)
      · exact .step (.inr ⟨harrives.before.elsewhere hjump.1.cells, hjump.2⟩)
    | inr exit =>
      exact hturn.over (fun _ => id) id fun i hi _ => ⟨hi, (hloops₃ i (List.mem_cons_of_mem _ hi)).symm⟩

/-- What is behind the rounds of a loop. -/
theorem simulates_loopEnd {exit : Exit V} {done : Nat} (hdone : done ≤ s.builder.labels)
    (h : g.Exits around u s n p (g.Jumps s n (.numbered done) p) exit) (exitDrops : List LocalId) :
    g.Simulates s p (do
        Emit.build (Ir.Build.placeLabel (.numbered done))
        Emit.dropLocals exitDrops)
      (Activation.andThen (Pure.pure exit) (g.x.leaving exitDrops .falls))
      fun t q _ exit => g.Exits around u t n q (g.At t n q) exit := by
  by_cases hexit : exit = .falls
  · subst hexit
    have hjump : g.Jumps s n (.numbered done) p := h
    show g.Simulates s p _ (g.x.leaving exitDrops .falls) _
    refine .seq hjump.1.isOpen (simulates_placeLabel (.inr hjump) hdone) fun _ t q _ _ hq => ?_
    exact (simulates_dropLocals exitDrops hq.1).map fun _ _ _ _ hat => hat
  · have hover {r : Unit} {t : Emitter} (he : (do
        Emit.build (Ir.Build.placeLabel (.numbered done))
        Emit.dropLocals exitDrops) s = .ok r t) :
        g.Exits around u t n p (g.At t n p) exit := by
      obtain ⟨_, s₁, hplace, hdrops⟩ := Run.bind_eq_ok.mp he
      have hgrows : s₁.Grows (· ∈ around) 0 t := Emit.Growing.grows hdrops
      exact h.over (fun heq => absurd heq hexit) (fun hbefore => (hbefore.jumped hplace).grow hgrows)
        fun id hid _ => ⟨hid, rfl⟩
    cases exit with
    | falls => exact absurd rfl hexit
    | _ => exact .stay fun _ _ he _ => hover he

/-- A loop behind its header. -/
theorem simulates_emitLoop (h : g.At s n p) {body step : Emit Unit}
    {runBody runStep : Action V (Exit V)}
    (hbool : ∀ test, loop.condition = some test → test.type.shape = .bool)
    (hid : loop.id ∉ around)
    (hgrow : Emit.Growing (· ∈ loop.id :: around) m body)
    (hgrow' : Emit.Growing (· ∈ loop.id :: around) k step)
    (hfollows : Activation.Follows loop (g.x.loopTest n loop.condition) runBody runStep)
    (halive : ¬(Part.test loop false).Finds .dead)
    (hbody : ¬(Part.block loop.body).Finds .dead → ∀ t q,
      g.At t (n + Core.testCells loop.condition) q →
        g.Simulates t q body runBody fun u q' _ exit =>
          g.Exits (loop.id :: around) t u (n + Core.testCells loop.condition + m) q'
            (g.At u (n + Core.testCells loop.condition + m) q') exit)
    (hstep : ¬(Part.optional loop.step).Finds .dead → ∀ t q,
      g.At t (n + Core.testCells loop.condition + m) q →
        g.Simulates t q step runStep fun u q' _ exit =>
          g.Exits (loop.id :: around) t u (n + Core.testCells loop.condition + m + k) q'
            (g.At u (n + Core.testCells loop.condition + m + k) q') exit) :
    g.Simulates s p (Emit.emitLoop loop.id loop.condition body step loop.exitDrops)
      (Activation.andThen
        (.rounds (Activation.loopRound loop.id (g.x.loopTest n loop.condition) runBody runStep)
          g.x.limit .test)
        (g.x.leaving loop.exitDrops .falls))
      fun t q _ exit => g.Exits around s t (n + Core.testCells loop.condition + m + k) q
        (g.At t (n + Core.testCells loop.condition + m + k) q) exit := by
  have hextending (check first next done : Label) :=
    Emit.extending_emitRounds loop.condition hgrow.extending hgrow'.extending check first next done
  rw [Emit.emitLoop_eq]
  refine .newLabel (.newLabel (.newLabel (.newLabel ?_)))
  have hat := h.relabeled.relabeled.relabeled.relabeled
  let labels : LoopLabels :=
    { continueTo := .numbered (s.relabeled.relabeled.builder.labels + 1)
      breakTo := .numbered (s.relabeled.relabeled.relabeled.builder.labels + 1) }
  let inside : Emitter :=
    { s.relabeled.relabeled.relabeled.relabeled with loops := (loop.id, labels) :: s.loops }
  refine .around hat.isOpen fun _ s₀ henter => ?_
  cases henter
  have hinside : g.At inside n p := hat.same rfl rfl (Nat.le_refl _)
  have hcheck : s.builder.labels + 1 ≤ inside.builder.labels := by
    show s.builder.labels + 1 ≤ s.builder.labels + 4
    omega
  have hfirst : s.relabeled.builder.labels + 1 ≤ inside.builder.labels :=
    Nat.le_add_right (s.builder.labels + 2) 2
  have hrounds := simulates_emitRounds hinside hbool
    (show inside.loops.lookup loop.id = some labels from List.lookup_cons_self) hcheck hfirst
    (Nat.le_add_right (s.builder.labels + 3) 1) hgrow hgrow' hfollows halive hbody hstep
  refine .bind hinside.isOpen hrounds fun _ t q exit _ hl hexits => ?_
  have hexits' : g.Exits around s t (n + Core.testCells loop.condition + m + k) q
      (g.Jumps t (n + Core.testCells loop.condition + m + k)
        (.numbered (s.relabeled.relabeled.relabeled.builder.labels + 1)) q) exit :=
    hexits.over (fun _ hjump => hjump) id fun id hmem _ => ⟨hmem, by
      have hne : id ≠ loop.id := fun heq => hid (heq ▸ hmem)
      show s.loops.lookup id = ((loop.id, labels) :: s.loops).lookup id
      rw [List.lookup_cons, beq_false_of_ne hne]⟩
  exact simulates_loopEnd hl.labels hexits' loop.exitDrops

end

/-! ## Trees -/

variable (g) in
/-- The code of a part of a body that takes `cells` cells has the effects of executing it, from
wherever its emission begins. -/
def Runs (around : List LoopId) (cells : Nat) (emit : Emit Unit) (run : Nat → Action V (Exit V)) :
    Prop :=
  ∀ ⦃s p n⦄, g.At s n p → g.Simulates s p emit (run n) fun t q _ exit =>
    g.Exits around s t (n + cells) q (g.At t (n + cells) q) exit

/-- Nothing is emitted for a part that is missing. -/
theorem runs_nothing (around : List LoopId) :
    g.Runs around 0 (Pure.pure ()) fun _ => Pure.pure .falls :=
  fun _ _ _ h => .pure h

/-- The drops at the end of a block, which only control that falls through it comes to. -/
theorem simulates_blockEnd (h : g.At s n p) (drops : List LocalId) :
    g.Simulates s p (do if !(← Emit.isTerminated) then Emit.dropLocals drops)
      (g.x.leaving drops .falls) fun t q _ exit => g.Exits around s t n q (g.At t n q) exit := by
  refine .skip rfl ?_
  rw [h.opened]
  exact (simulates_dropLocals drops h).map fun _ _ _ _ hat => hat

theorem execBranches_unknown {x : Activation V} {condition : Core.Expr}
    (hknown : condition.known? = none) (cell : Nat) (body : Block) (rest : List (Core.Expr × Block))
    (otherwise : Nat → Action V (Exit V)) :
    x.execBranches cell ((condition, body) :: rest) otherwise = (do
      match ← (do
        let value ← x.eval cell condition
        if x.machine.truth value.value then
          some <$> x.execBlock (cell + condition.cells) body
        else return none) with
      | none => x.execBranches (cell + condition.cells + body.cells) rest otherwise
      | some exit => return exit) := by
  conv => lhs; unfold Activation.execBranches
  simp only [hknown, bind_assoc]
  congr 1
  funext value
  split
  · simp only [map_eq_pure_bind, bind_assoc, pure_bind, bind_pure]
  · simp only [pure_bind]

/-- The branches behind one whose condition is not known. -/
theorem simulates_emitBranches_cons (h : g.At s n p) {condition : Core.Expr}
    (hknown : condition.known? = none) {body : Block} {rest : List (Core.Expr × Block)} {done : Label}
    {otherwise : Emit Unit} {runOther : Nat → Action V (Exit V)}
    (hgrow : Emit.Growing (· ∈ around) body.cells (Emit.emitBlock body))
    (hgrow' : Emit.Growing (· ∈ around) k (Emit.emitBranches done rest otherwise))
    (hbody : g.Runs around body.cells (Emit.emitBlock body) fun n => g.x.execBlock n body)
    (hrest : ∀ t q m, g.At t m q → g.Simulates t q (Emit.emitBranches done rest otherwise)
      (g.x.execBranches m rest runOther) fun u q' _ exit =>
        g.Exits around t u (m + k) q' (g.Arrives u (m + k) done q') exit) :
    g.Simulates s p (do
        Emit.emitBranch condition (Emit.emitBlock body) done
        Emit.emitBranches done rest otherwise)
      (g.x.execBranches n ((condition, body) :: rest) runOther) fun t q _ exit =>
        g.Exits around s t (n + condition.cells + body.cells + k) q
          (g.Arrives t (n + condition.cells + body.cells + k) done q) exit := by
  have hbranch := Emit.growing_emitBranch condition hgrow done
  rw [execBranches_unknown hknown]
  refine .chain hbranch.extending (fun _ => hgrow'.extending) h.isOpen
    (simulates_emitBranch h condition hgrow (fun t q hat => hbody hat) done) fun _ t q left ht _ hq => ?_
  have hloops (id : LoopId) (hid : id ∈ around) : s.loops.lookup id = t.loops.lookup id :=
    ((hbranch.grows ht).loops id hid).symm
  cases left with
  | none =>
    refine (hrest t q _ hq).mono fun _ u q' exit _ hexits => ?_
    exact hexits.over (fun _ => id) id fun id hid _ => ⟨hid, hloops id hid⟩
  | some exit =>
    refine .stay fun _ u hu _ => ?_
    have hgrows := hgrow'.grows hu
    exact hq.over (fun _ hjump => .inr (hjump.grow hgrows)) (fun hbefore => hbefore.grow hgrows)
      fun id hid _ => ⟨hid, rfl⟩

/-- What is behind the branches of an `if`. -/
theorem simulates_branchesEnd {exit : Exit V} {done : Nat} (hdone : done ≤ s.builder.labels)
    (h : g.Exits around u s n p (g.Arrives s n (.numbered done) p) exit) :
    g.Simulates s p (Emit.build (Ir.Build.placeLabel (.numbered done))) (Pure.pure exit)
      fun t q _ exit => g.Exits around u t n q (g.At t n q) exit := by
  by_cases hexit : exit = .falls
  · subst hexit
    have harrives : g.Arrives s n (.numbered done) p := h
    exact (simulates_placeLabel harrives hdone).returning.mono fun _ _ _ _ _ hq => hq.2 ▸ hq.1.1
  · exact .stay fun _ t he _ => h.over (fun heq => absurd heq hexit) (fun hbefore => hbefore.jumped he)
      fun id hid _ => ⟨hid, rfl⟩

section

variable {Γ : Core.TypeEnv} {returns : Ty}

mutual

/-- The code of a block has the effects of executing it, unless a route comes to a statement in it that
is flagged as unreachable. -/
theorem simulates_emitBlock : ∀ {around : List LoopId} (b : Block), b.Typed Γ returns →
    b.Nested around → ¬(Part.block b).Finds .dead →
      g.Runs around b.cells (Emit.emitBlock b) fun n => g.x.execBlock n b
  | around, .mk stmts drops, .mk hstmts, hnested, halive => by
    intro s p n h
    have hgrow := Emit.growing_emitStmts stmts hnested
    have hruns := simulates_emitStmts stmts hstmts hnested
      fun hdead => halive (Part.finds_block hdead)
    unfold Emit.emitBlock Activation.execBlock
    show g.Simulates s p _ _ fun t q _ exit => g.Exits around s t (n + (Core.stmtsCells stmts + 0)) q
      (g.At t (n + (Core.stmtsCells stmts + 0)) q) exit
    exact simulates_andThen hgrow inferInstance h.isOpen (hruns h)
      fun t q hat _ => simulates_blockEnd hat drops

theorem simulates_emitStmts : ∀ {around : List LoopId} (stmts : List Stmt),
    (∀ s ∈ stmts, s.Typed Γ returns) → Core.stmtsNested around stmts →
      ¬(Part.stmts stmts).Finds .dead →
        g.Runs around (Core.stmtsCells stmts) (Emit.emitStmts stmts) fun n => g.x.execStmts n stmts
  | around, [], _, _, _ => by
    unfold Core.stmtsCells Emit.emitStmts Activation.execStmts
    exact runs_nothing around
  | around, s :: rest, htyped, hnested, halive => by
    intro s' p n h
    have hreached : s.unreachable = false := by
      by_contra hflag
      rw [Bool.not_eq_false] at hflag
      exact halive (Part.finds_head (Part.dead_of_flag hflag) nofun)
    have hgrow := Emit.growing_emitStmt s hnested.1
    have hgrow' := Emit.growing_emitStmts rest hnested.2
    have hruns := simulates_emitStmt s (htyped s List.mem_cons_self) hnested.1
      fun hdead => halive (Part.finds_head hdead nofun)
    unfold Core.stmtsCells Emit.emitStmts Activation.execStmts
    rw [hreached]
    refine simulates_andThen hgrow hgrow' h.isOpen (hruns h) fun t q hat hran => ?_
    refine (simulates_emitStmts rest (fun s hs => htyped s (List.mem_cons_of_mem _ hs)) hnested.2
      (fun hdead => halive (Part.finds_tail (g.x.finds_execStmt s hran) hdead)) hat).mono ?_
    intro _ u q' exit _ hexits
    rwa [← Nat.add_assoc]

theorem simulates_emitStmt : ∀ {around : List LoopId} (s : Stmt), s.Typed Γ returns →
    s.Nested around → ¬(Part.stmt s).Finds .dead →
      g.Runs around s.cells (Emit.emitStmt s) fun n => g.x.execStmt n s
  | around, .mk kind span dead, htyped, hnested, halive => by
    intro s p n h
    unfold Core.Stmt.cells Emit.emitStmt Activation.execStmt
    exact simulates_emitStmtKind kind htyped hnested (fun hdead => halive (Part.finds_stmt hdead)) h

theorem simulates_emitStmtKind : ∀ {around : List LoopId} (kind : StmtKind) {span : Span}
    {dead : Bool}, (Stmt.mk kind span dead).Typed Γ returns → kind.Nested around →
      ¬(Part.kind kind).Finds .dead →
        g.Runs around kind.cells (Emit.emitStmtKind kind) fun n => g.x.execKind n kind
  | around, .declare id value, _, _, _, _, _ => by
    intro s p n h
    unfold Emit.emitStmtKind
    exact simulates_emitDeclare h id value
  | around, .assign target value releasePrior, _, _, _, _, _ => by
    intro s p n h
    unfold Emit.emitStmtKind
    exact simulates_emitAssign h target value releasePrior
  | around, .expr value unused, _, _, _, _, _ => by
    intro s p n h
    unfold Emit.emitStmtKind
    exact simulates_emitExprStmt h value unused
  | around, .ret value drops, _, _, _, _, _ => by
    intro s p n h
    unfold Emit.emitStmtKind
    exact simulates_emitReturn h value drops
  | around, .brk id drops, _, _, _, hid, _ => by
    intro s p n h
    unfold Emit.emitStmtKind Activation.execKind
    exact simulates_emitJump h drops fun t q labels hlookup hjump => ⟨hid, labels, hlookup, hjump⟩
  | around, .cont id drops, _, _, _, hid, _ => by
    intro s p n h
    unfold Emit.emitStmtKind Activation.execKind
    exact simulates_emitJump h drops fun t q labels hlookup hjump => ⟨hid, labels, hlookup, hjump⟩
  | around, .cond branches otherwise, _, _, htyped, hnested, halive => by
    intro s p n h
    cases htyped with
    | cond _ hbodies hotherwise =>
      have hgrow := Emit.growing_emitOptionalBlock otherwise hnested.2
      have hgrow' (done : Label) := Emit.growing_emitBranches done branches hgrow hnested.1
      have halive' : ¬(Part.branches branches otherwise).Finds .dead :=
        fun hdead => halive (Part.finds_cond hdead)
      unfold Core.StmtKind.cells Emit.emitStmtKind Activation.execKind
      refine .newLabel ?_
      have hruns := simulates_emitBranches (.numbered (s.builder.labels + 1)) otherwise hgrow
        (simulates_emitOptionalBlock otherwise hotherwise hnested.2) branches hbodies hnested.1 halive'
        h.relabeled
      dsimp only
      rw [← bind_pure (g.x.execBranches n branches _)]
      refine .chain (hgrow' _).extending (fun _ => inferInstance) h.relabeled.isOpen hruns
        fun _ t q exit _ hl hexits => ?_
      have hexits' : g.Exits around s t _ q _ exit :=
        hexits.over (fun _ => id) id fun id hid _ => ⟨hid, rfl⟩
      exact simulates_branchesEnd hl.labels hexits'
  | around, .loop id init condition step body exitDrops, _, _, htyped, hnested, halive => by
    intro s p n h
    cases htyped with
    | loop hinit htest hstep hbody =>
      obtain ⟨hid, hinitNested, hstepNested, hbodyNested⟩ := hnested
      let loop : Core.Loop := ⟨id, condition, step, body, exitDrops⟩
      have hgrowInit := Emit.growing_emitOptionalStmt init hinitNested
      have hgrowStep := Emit.growing_emitOptionalStmt step hstepNested
      have hgrowBody := Emit.growing_emitBlock body hbodyNested
      have hkeep (i : LoopId) (hi : i ∈ around) : i ∈ id :: around := List.mem_cons_of_mem id hi
      have hgrowLoop : Emit.Growing (· ∈ around) _ (Emit.emitLoop id condition _ _ exitDrops) :=
        Emit.growing_emitLoop hid (hgrowBody.mono hkeep) (hgrowStep.mono hkeep) exitDrops
      unfold Core.StmtKind.cells Emit.emitStmtKind Activation.execKind
      refine simulates_andThen hgrowInit hgrowLoop h.isOpen
        (simulates_emitOptionalStmt init hinit hinitNested
          (fun hdead => halive (Part.finds_init hdead nofun)) h) fun t q hat hran => ?_
      have hbool : ∀ test, loop.condition = some test → test.type.shape = .bool :=
        fun test ht => (htest test ht).2
      have hloop := simulates_emitLoop hat hbool hid hgrowBody hgrowStep
        (g.x.follows_loop _ (fun _ _ _ => g.x.finds_execBlock body)
          fun _ _ _ => g.x.finds_execOptional step)
        (fun hdead => halive (Part.finds_loop (g.x.finds_execOptional init hran) hdead))
        (fun hdead t q hat => simulates_emitBlock body hbody hbodyNested hdead hat)
        (fun hdead t q hat => simulates_emitOptionalStmt step hstep hstepNested hdead hat)
      simpa only [Nat.add_assoc] using hloop
  | around, .scope block, _, _, htyped, hnested, halive => by
    intro s p n h
    cases htyped with
    | scope hblock =>
      unfold Core.StmtKind.cells Emit.emitStmtKind Activation.execKind
      exact simulates_emitBlock block hblock hnested (fun hdead => halive (Part.finds_scope hdead)) h

/-- The branches of an `if`: control goes on at `done` or at the end of what was emitted. -/
theorem simulates_emitBranches {around : List LoopId} {other : Emit Unit}
    {runOther : Nat → Action V (Exit V)} {m : Nat} (done : Label) (otherwise : Option Block)
    (hgrow : Emit.Growing (· ∈ around) m other)
    (hother : ¬(Part.branches [] otherwise).Finds .dead → g.Runs around m other runOther) :
    ∀ (branches : List (Core.Expr × Block)), (∀ branch ∈ branches, branch.2.Typed Γ returns) →
    Core.branchesNested around branches → ¬(Part.branches branches otherwise).Finds .dead →
    ∀ {s : Emitter} {p : Point V} {n : Nat}, g.At s n p →
      g.Simulates s p (Emit.emitBranches done branches other) (g.x.execBranches n branches runOther)
        fun t q _ exit => g.Exits around s t (n + Core.branchCells branches m) q
          (g.Arrives t (n + Core.branchCells branches m) done q) exit
  | [], _, _, halive, s, p, n, h => by
    unfold Core.branchCells Emit.emitBranches Activation.execBranches
    exact (hother halive h).mono fun _ _ _ _ _ hexits => hexits.imp .inl
  | (condition, body) :: rest, hbodies, hnested, halive, s, p, n, h => by
    have hbody := hbodies _ List.mem_cons_self
    have hrest (branch : Core.Expr × Block) (hbranch : branch ∈ rest) :=
      hbodies branch (List.mem_cons_of_mem _ hbranch)
    cases hknown : condition.known? with
    | none =>
      have hruns := simulates_emitBranches_cons h hknown (Emit.growing_emitBlock body hnested.1)
        (Emit.growing_emitBranches done rest hgrow hnested.2)
        (simulates_emitBlock body hbody hnested.1
          fun hdead => halive (Part.finds_taken (by rw [hknown]; nofun) hdead))
        fun t q m hat => simulates_emitBranches done otherwise hgrow hother rest hrest hnested.2
          (fun hdead => halive (Part.finds_other (by rw [hknown]; nofun) hdead)) hat
      unfold Core.branchCells Emit.emitBranches
      simpa only [hknown, Nat.add_assoc] using hruns
    | some known =>
      cases known with
      | false =>
        unfold Core.branchCells Emit.emitBranches Activation.execBranches
        simp only [hknown]
        exact simulates_emitBranches done otherwise hgrow hother rest hrest hnested.2
          (fun hdead => halive (Part.finds_other (by rw [hknown]; nofun) hdead)) h
      | true =>
        unfold Core.branchCells Emit.emitBranches Activation.execBranches
        simp only [hknown]
        exact (simulates_emitBlock body hbody hnested.1
          (fun hdead => halive (Part.finds_taken (by rw [hknown]; nofun) hdead)) h).mono
          fun _ _ _ _ _ hexits => hexits.imp .inl

theorem simulates_emitOptionalBlock : ∀ {around : List LoopId} (b : Option Block),
    (∀ block, b = some block → block.Typed Γ returns) → Core.otherwiseNested around b →
      ¬(Part.branches [] b).Finds .dead →
        g.Runs around (Core.otherwiseCells b) (Emit.emitOptionalBlock b) fun n => g.x.execOtherwise n b
  | around, none, _, _, _ => by
    unfold Core.otherwiseCells Emit.emitOptionalBlock Activation.execOtherwise
    exact runs_nothing around
  | around, some b, htyped, hnested, halive => by
    unfold Core.otherwiseCells Emit.emitOptionalBlock Activation.execOtherwise
    exact simulates_emitBlock b (htyped b rfl) hnested fun hdead => halive (Part.finds_otherwise hdead)

theorem simulates_emitOptionalStmt : ∀ {around : List LoopId} (s : Option Stmt),
    (∀ stmt, s = some stmt → stmt.Typed Γ returns) → Core.optionalNested around s →
      ¬(Part.optional s).Finds .dead →
        g.Runs around (Core.optionalCells s) (Emit.emitOptionalStmt s) fun n => g.x.execOptional n s
  | around, none, _, _, _ => by
    unfold Core.optionalCells Emit.emitOptionalStmt Activation.execOptional
    exact runs_nothing around
  | around, some s, htyped, hnested, halive => by
    unfold Core.optionalCells Emit.emitOptionalStmt Activation.execOptional
    exact simulates_emitStmt s (htyped s rfl) hnested fun hdead => halive (Part.finds_optional hdead)

end

end

end Stage

end OwnLang
