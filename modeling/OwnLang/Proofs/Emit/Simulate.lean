import OwnLang.Proofs.Emit.Growth
import OwnLang.Proofs.Exec.Graph

/-!
# Executing what was emitted

A `Stage` is a finished function with an activation of the tree that it was emitted from. While a part
of the tree is emitted, its code is not finished, but it is `Within` the finished code, and a point
of an execution may stand where emission goes on (`At`).

`Simulates` relates a part of emission to an execution of the tree: from such a point the code that is
emitted has the effects that the execution has, in the same order, and it comes to a point that
stands for the end of the execution. If the execution is cut, the code has made at least as many
steps as a loop may take rounds.
-/

namespace OwnLang

open Ir (Line Label Operand Ref Begins)
open Exec

/-- The function that is being emitted. -/
def Emitter.fn (s : Emitter) : Ir.OpenFunction :=
  s.builder.function.getD { name := "", returns := .void, params := [] }

theorem Emitter.fn_eq {s : Emitter} {f : Ir.OpenFunction} (h : s.builder.function = some f) :
    s.fn = f := by
  rw [fn, h]
  rfl

/-- A finished function, and an activation of the tree that it was emitted from. Its labels are told
apart, and no line assigns the address of a slot. -/
structure Stage (V : Type) where
  x : Activation V
  lines : Array Line
  texts : Nat → Option String
  args : Nat → V
  slots : Array (Nat × Ir.Ty)
  marked_le : ∀ k, lines.countP (·.marks k) ≤ 1
  assigned_le : ∀ k, slots.countP (·.1 = k) + lines.countP (·.assigns k) ≤ 1

namespace Stage

variable {V : Type} (g : Stage V)

/-- The code of the function. -/
def code : Code V := ⟨g.lines, g.texts, g.x.machine, g.args⟩

/-- The temporaries that hold addresses of slots hold those of their cells. -/
def Cells (p : Point V) : Prop :=
  ∀ (i k : Nat) (type : Ir.Ty), g.slots[i]? = some (k, type) → p.temps k = g.x.machine.cell i

/-- What was emitted so far is part of the finished function. -/
structure Within (s : Emitter) : Prop where
  isOpen : s.builder.function.isSome = true
  context : s.context = g.x.program
  lines : Begins s.fn.body g.lines
  slots : Begins s.fn.slots g.slots
  texts : ∀ (n : Nat) (text : String), s.builder.strings[n]? = some text → g.texts n = some text
  locals : ∀ (i : Nat) (address : Operand) (t : Ty), s.slots[i]? = some (address, t) →
    (∃ k type, address = ⟨.ptr, .temp k⟩ ∧ g.slots[i]? = some (k, type)) ∧
      ∃ l, g.x.locals[i]? = some l ∧ l.type = t

variable {g} {s t : Emitter} {p q : Point V} {k n : Nat}

theorem extends_fn (h : s.Extends t) (hs : s.builder.function.isSome = true) :
    t.builder.function.isSome = true ∧ s.fn.Extends t.fn := by
  obtain ⟨f, hf⟩ := Option.isSome_iff_exists.mp hs
  obtain ⟨f', hf', hext⟩ := h.builder.function f hf
  rw [Emitter.fn_eq hf, Emitter.fn_eq hf', hf']
  exact ⟨rfl, hext⟩

theorem Within.back (h : g.Within t) (hst : s.Extends t) (hs : s.builder.function.isSome = true) :
    g.Within s where
  isOpen := hs
  context := hst.context ▸ h.context
  lines := (extends_fn hst hs).2.body.trans h.lines
  slots := (extends_fn hst hs).2.slots.trans h.slots
  texts n text hn := h.texts n text (hst.builder.strings n text hn)
  locals i address t hi := h.locals i address t (hst.slots ▸ hi)

/-! ## The finished code -/

/-- Two places of an array that are counted once are one. -/
theorem eq_of_countP_le_one {α : Type} {pred : α → Bool} {xs : Array α} (h : xs.countP pred ≤ 1)
    {i j : Nat} {x y : α} (hi : xs[i]? = some x) (hj : xs[j]? = some y) (hx : pred x = true)
    (hy : pred y = true) : i = j := by
  rw [← Array.countP_toList] at h
  rw [← Array.getElem?_toList] at hi hj
  generalize xs.toList = ys at h hi hj
  induction ys generalizing i j with
  | nil => simp at hi
  | cons z zs ih =>
    have hmem {m : Nat} {w : α} (hm : zs[m]? = some w) (hw : pred w = true) : 0 < zs.countP pred :=
      List.countP_pos_iff.mpr ⟨w, List.mem_of_getElem? hm, hw⟩
    rw [List.countP_cons] at h
    cases i with
    | zero =>
      cases j with
      | zero => rfl
      | succ j =>
        have hz : z = x := by simpa using hi
        have hpos := hmem hj hy
        rw [hz, if_pos hx] at h
        omega
    | succ i =>
      cases j with
      | zero =>
        have hz : z = y := by simpa using hj
        have hpos := hmem hi hx
        rw [hz, if_pos hy] at h
        omega
      | succ j => rw [ih (by omega) hi hj]

/-- A label is found where it was placed. -/
theorem find_label {number i : Nat} (h : g.lines[i]? = some (.label (.numbered number))) :
    g.code.find (.numbered number) = some i := by
  unfold Code.find
  obtain ⟨hi, hline⟩ := Array.getElem?_eq_some_iff.mp h
  refine Array.findIdx?_eq_some_iff_getElem.mpr ⟨hi, ?_, fun j hj hlabel => ?_⟩
  · simp [code, hline]
  · have hmarks : g.lines[j].marks number = true := hlabel
    have heq := eq_of_countP_le_one (g.marked_le number) h (Array.getElem?_eq_getElem (by omega))
      (by simp [Line.marks]) hmarks
    omega

/-- A temporary that a line assigns holds no address of a slot. -/
theorem not_slot {temp i : Nat} {instr : Ir.Instr} (h : g.lines[i]? = some (.result temp instr))
    (j : Nat) (type : Ir.Ty) : g.slots[j]? ≠ some (temp, type) := by
  intro hslot
  have hline : 0 < g.lines.countP (·.assigns temp) :=
    Array.countP_pos_iff.mpr ⟨_, Array.mem_of_getElem? h, by simp [Line.assigns]⟩
  have hslots : 0 < g.slots.countP (·.1 = temp) :=
    Array.countP_pos_iff.mpr ⟨_, Array.mem_of_getElem? hslot, by simp⟩
  have := g.assigned_le temp
  omega

/-- The addresses of slots stay where they are. -/
theorem cells_next (hp : g.Cells p) (h : g.code.next p = .go q) : g.Cells q := by
  unfold Code.next at h
  split at h
  · split at h
    · rename_i index line hline
      cases line with
      | label name => cases h
      | result temp instr =>
        unfold Code.line at h
        dsimp only at h
        split at h <;> cases h
        intro i k type hi
        have hne : k ≠ temp := fun heq => not_slot hline i type (heq ▸ hi)
        show Function.update p.temps temp _ k = _
        rw [Function.update_of_ne hne]
        exact hp i k type hi
      | effect instr =>
        unfold Code.line at h
        dsimp only at h
        split at h <;> cases h
        exact hp
      | leave terminator => cases terminator <;> cases h <;> exact hp
    · cases h
  · split at h <;> cases h
    exact hp

/-! ## Points where emission goes on -/

/-- A point that control jumps from or goes on from while `n` slots are reserved. -/
structure Before (g : Stage V) (s : Emitter) (n : Nat) (p : Point V) : Prop where
  isOpen : s.builder.function.isSome = true
  context : s.context = g.x.program
  reserved : s.fn.slots.size = n
  cells : g.Cells p

/-- A point stands at the end of what was emitted so far, in an open block. -/
structure At (g : Stage V) (s : Emitter) (n : Nat) (p : Point V) : Prop extends Before g s n p where
  active : s.fn.terminated = false
  control : p.control = .line s.fn.body.size
  block : p.block = s.fn.block
  bounded : ∀ k, s.fn.block = .numbered k → k ≤ s.builder.labels

/-- The temporaries that were assigned before hold what they held. -/
def Kept (s : Emitter) (p q : Point V) : Prop := ∀ n, n ≤ s.fn.temps → q.temps n = p.temps n

/-- More was emitted, and the temporaries that were assigned before hold what they held. -/
structure Later (s : Emitter) (p : Point V) (t : Emitter) (q : Point V) : Prop where
  kept : Kept s p q
  temps : s.fn.temps ≤ t.fn.temps
  labels : s.builder.labels ≤ t.builder.labels

theorem At.function (h : g.At s n p) : s.builder.function = some s.fn := by
  obtain ⟨f, hf⟩ := Option.isSome_iff_exists.mp h.isOpen
  rw [Emitter.fn_eq hf]
  exact hf

theorem At.opened (h : g.At s n p) : s.builder.isTerminated = false := by
  rw [Ir.Builder.isTerminated, h.function]
  exact h.active

/-- What is at the end of the code decides what happens at a point there. -/
theorem At.next (h : g.At s n p) {line : Line} (hline : g.lines[s.fn.body.size]? = some line) :
    g.code.next p = g.code.line p s.fn.body.size line := by
  have hcode : g.code.lines[s.fn.body.size]? = some line := hline
  simp only [Code.next, h.control, hcode]

variable (g) in
/-- An operand stands for a value at a point. -/
structure Denotes (s : Emitter) (p : Point V) (operand : Operand) (v : Datum V) : Prop where
  type : operand.type = v.type
  value : g.code.value p.temps operand.ref = v.value
  /-- It was assigned already, or it is the address of a slot. -/
  known : ∀ k, operand.ref = .temp k → k ≤ s.fn.temps ∨
    ∃ (i : Nat) (type : Ir.Ty), g.slots[i]? = some (k, type)

/-! ## Simulation -/

variable {α β γ δ : Type} {least : Nat}

variable (g) in
/-- The code leads from a point to one that satisfies `post`, with the effects of an execution. If the
execution is cut, the code has made `least` steps by then. -/
def Outcome (s : Emitter) (p : Point V) (least : Nat) (post : Point V → β → Prop) :
    Progress V β → Prop
  | .done b effects =>
    ∃ k q, g.code.Reaches k p q ∧ q.effects = effects ∧ Kept s p q ∧ post q b
  | .cut effects => ∃ k q, g.code.Reaches k p q ∧ q.effects = effects ∧ least ≤ k

variable (g) in
/-- The code of a part of emission has the effects of an execution. -/
def Simulates (s : Emitter) (p : Point V) (e : Emit α) (a : Action V β)
    (post : Emitter → Point V → α → β → Prop) : Prop :=
  ∀ ⦃r t⦄, e s = .ok r t → g.Within t →
    g.Outcome s p g.x.limit (fun q b => post t q r b) (a p.effects)

theorem Kept.refl (s : Emitter) (p : Point V) : Kept s p p := fun _ _ => rfl

theorem Kept.trans {r : Point V} (h : Kept s p q) (h' : Kept s q r) : Kept s p r :=
  fun n hn => (h' n hn).trans (h n hn)

theorem Later.refl (s : Emitter) (p : Point V) : Later s p s p :=
  ⟨.refl s p, Nat.le_refl _, Nat.le_refl _⟩

theorem Later.trans_kept {r : Point V} (h : Later s p t q) (h' : Kept t q r) : Kept s p r :=
  fun n hn => (h' n (hn.trans h.temps)).trans (h.kept n hn)

theorem Later.trans {u : Emitter} {r : Point V} (h : Later s p t q) (h' : Later t q u r) :
    Later s p u r := ⟨h.trans_kept h'.kept, h.temps.trans h'.temps, h.labels.trans h'.labels⟩

/-- What was emitted in between was executed. -/
theorem later_of_extends (hst : s.Extends t) (hs : s.builder.function.isSome = true)
    (h : Kept s p q) : Later s p t q := ⟨h, (extends_fn hst hs).2.temps, hst.builder.labels⟩

theorem Outcome.mono {post post' : Point V → β → Prop} {progress : Progress V β}
    (h : g.Outcome s p least post progress)
    (hpost : ∀ q b, Kept s p q → post q b → post' q b) : g.Outcome s p least post' progress := by
  cases progress with
  | done b effects =>
    obtain ⟨k, q, hreach, heffects, hkept, hq⟩ := h
    exact ⟨k, q, hreach, heffects, hkept, hpost q b hkept hq⟩
  | cut effects => exact h

theorem Outcome.earlier {post : Point V → β → Prop} {progress : Progress V β}
    (h : g.Outcome t p least post progress) (hst : s.fn.temps ≤ t.fn.temps) :
    g.Outcome s p least post progress := by
  cases progress with
  | done b effects =>
    obtain ⟨k, q, hreach, heffects, hkept, hq⟩ := h
    exact ⟨k, q, hreach, heffects, fun n hn => hkept n (hn.trans hst), hq⟩
  | cut effects => exact h

/-- A first part leads to a second one. -/
theorem Outcome.bind {a : Action V β} {f : β → Action V γ} {post : Point V → β → Prop}
    {post' : Point V → γ → Prop} (h : g.Outcome s p least post (a p.effects)) (hst : s.Extends t)
    (hs : s.builder.function.isSome = true)
    (hnext : ∀ q b, Later s p t q → post q b → g.Outcome t q least post' (f b q.effects)) :
    g.Outcome s p least post' ((a >>= f) p.effects) := by
  rw [Action.bind_apply]
  cases ha : a p.effects with
  | cut effects =>
    rw [ha] at h
    exact h
  | done b effects =>
    rw [ha] at h
    obtain ⟨k, q, hreach, rfl, hkept, hq⟩ := h
    have hlater := later_of_extends hst hs hkept
    have hrest := hnext q b hlater hq
    dsimp only
    cases hf : f b q.effects with
    | cut effects =>
      rw [hf] at hrest
      obtain ⟨m, r, hreach', heffects, hleast⟩ := hrest
      exact ⟨k + m, r, hreach.trans hreach', heffects, by omega⟩
    | done c effects =>
      rw [hf] at hrest
      obtain ⟨m, r, hreach', heffects, hkept', hr⟩ := hrest
      exact ⟨k + m, r, hreach.trans hreach', heffects, hlater.trans_kept hkept', hr⟩

/-- The code has made a few steps. -/
theorem Outcome.reaches {post : Point V → β → Prop} {progress : Progress V β} {more : Nat}
    (h : g.Outcome s q least post progress) (hreach : g.code.Reaches k p q) (hkept : Kept s p q)
    (hmore : more ≤ k + least) : g.Outcome s p more post progress := by
  cases progress with
  | done b effects =>
    obtain ⟨m, r, hreach', heffects, hkept', hr⟩ := h
    exact ⟨k + m, r, hreach.trans hreach', heffects, hkept.trans hkept', hr⟩
  | cut effects =>
    obtain ⟨m, r, hreach', heffects, hleast⟩ := h
    exact ⟨k + m, r, hreach.trans hreach', heffects, by omega⟩

namespace Simulates

variable {e : Emit α} {f : α → Emit γ} {a : Action V β} {f' : β → Action V δ}
  {post : Emitter → Point V → α → β → Prop} {post' : Emitter → Point V → γ → δ → Prop}

/-- The tree does nothing, and control stays where it is. -/
theorem stay {b : β} (h : ∀ r t, e s = .ok r t → g.Within t → post t p r b) :
    g.Simulates s p e (Pure.pure b) post :=
  fun r t he ht => ⟨0, p, .refl p, rfl, .refl s p, h r t he ht⟩

theorem pure {r : α} {b : β} (h : post s p r b) :
    g.Simulates s p (Pure.pure r) (Pure.pure b) post := by
  refine stay fun r' t he _ => ?_
  cases he
  exact h

theorem reject {cause : Cause} {span : Span} : g.Simulates s p (Run.reject cause span) a post :=
  fun r t he => by cases he

theorem stop {why : Stop} : g.Simulates s p (Run.stop why) a post := fun r t he => by cases he

theorem mono {post₁ : Emitter → Point V → α → β → Prop} (h : g.Simulates s p e a post)
    (hpost : ∀ r t q b, e s = .ok r t → post t q r b → post₁ t q r b) :
    g.Simulates s p e a post₁ :=
  fun r t he ht => (h he ht).mono fun q b _ hq => hpost r t q b he hq

theorem chain (he : Emit.Extending e) (hf : ∀ r, Emit.Extending (f r))
    (hs : s.builder.function.isSome = true) (h : g.Simulates s p e a post)
    (hnext : ∀ r t q b, e s = .ok r t → Later s p t q → post t q r b →
      g.Simulates t q (f r) (f' b) post') : g.Simulates s p (e >>= f) (a >>= f') post' := by
  intro c u hrun hu
  obtain ⟨r, t, hx, hy⟩ := Run.bind_eq_ok.mp hrun
  have hst := extends_fn (he.kept hx) hs
  have ht := hu.back ((hf r).kept hy) hst.1
  exact (h hx ht).bind (he.kept hx) hs fun q b hlater hq => hnext r t q b hx hlater hq hy hu

theorem bind [he : Emit.Extending e] [hf : ∀ r, Emit.Extending (f r)]
    (hs : s.builder.function.isSome = true) (h : g.Simulates s p e a post)
    (hnext : ∀ r t q b, e s = .ok r t → Later s p t q → post t q r b →
      g.Simulates t q (f r) (f' b) post') : g.Simulates s p (e >>= f) (a >>= f') post' :=
  .chain he hf hs h hnext

/-- What an execution returns is made of what its last part returns. -/
theorem map {d : β → δ} {post' : Emitter → Point V → α → δ → Prop} (h : g.Simulates s p e a post)
    (hpost : ∀ t q r b, post t q r b → post' t q r (d b)) :
    g.Simulates s p e (a >>= fun b => Pure.pure (d b)) post' := by
  intro r t he ht
  have hout := h he ht
  rw [Action.bind_apply]
  cases ha : a p.effects with
  | cut effects =>
    rw [ha] at hout
    exact hout
  | done b effects =>
    rw [ha] at hout
    obtain ⟨k, q, hreach, heffects, hkept, hq⟩ := hout
    exact ⟨k, q, hreach, heffects, hkept, hpost t q r b hq⟩

/-- What an execution returns that has no effect does not matter. -/
theorem returning {b : β} {d : δ} (h : g.Simulates s p e (Pure.pure b) post) :
    g.Simulates s p e (Pure.pure d) fun t q r d' => post t q r b ∧ d' = d := by
  intro r t he ht
  obtain ⟨k, q, hreach, heffects, hkept, hq⟩ := h he ht
  exact ⟨k, q, hreach, heffects, hkept, hq, rfl⟩

/-- A part of emission that belongs to nothing that the tree does. -/
theorem seq {b : β} {c : Action V δ} [he : Emit.Extending e] [hf : ∀ r, Emit.Extending (f r)]
    (hs : s.builder.function.isSome = true) (h : g.Simulates s p e (Pure.pure b) post)
    (hnext : ∀ r t q, e s = .ok r t → Later s p t q → post t q r b →
      g.Simulates t q (f r) c post') : g.Simulates s p (e >>= f) c post' := by
  show g.Simulates s p (e >>= f) (Pure.pure b >>= fun _ => c) post'
  exact bind hs h.returning fun r t q _ hx hlater hq => hnext r t q hx hlater hq.1

/-- A part of emission that only reads the state. -/
theorem skip {r : α} {c : Action V δ} (he : e s = .ok r s) (h : g.Simulates s p (f r) c post') :
    g.Simulates s p (e >>= f) c post' := by
  intro d u hrun hu
  rw [Run.bind_apply, he] at hrun
  exact h hrun hu

end Simulates

/-! ## Steps -/

theorem Denotes.later {operand : Operand} {v : Datum V} (h : g.Denotes s p operand v)
    (hlater : Later s p t q) (hp : g.Cells p) (hq : g.Cells q) : g.Denotes t q operand v where
  type := h.type
  value := by
    rw [← h.value]
    cases hop : operand.ref with
    | temp k =>
      show q.temps k = p.temps k
      rcases h.known k hop with hk | ⟨i, type, hi⟩
      · exact hlater.kept k hk
      · rw [hp i k type hi, hq i k type hi]
    | _ => rfl
  known k hk := (h.known k hk).imp (·.trans hlater.temps) id

variable (g) in
/-- What a part of emission returns stands for what an execution returns. -/
def Value (n : Nat) (t : Emitter) (q : Point V) (operand : Operand) (v : Datum V) : Prop :=
  g.At t n q ∧ g.Denotes t q operand v

/-- A line was added at the end of the code, and control goes on behind it. -/
theorem At.line (h : g.At s n p) {f : Ir.OpenFunction} {line : Line} (hf : t.builder.function = some f)
    (hbody : f.body = s.fn.body.push line) (hslots : f.slots = s.fn.slots)
    (hblock : f.block = s.fn.block) (hactive : f.terminated = false)
    (hlabels : t.builder.labels = s.builder.labels) (hcontext : t.context = s.context)
    (hcontrol : q.control = .line (s.fn.body.size + 1)) (hq : q.block = p.block)
    (hcells : g.Cells q) : g.At t n q := by
  have hfn := Emitter.fn_eq hf
  refine ⟨⟨by rw [hf]; rfl, hcontext.trans h.context, ?_, hcells⟩, ?_, ?_, ?_, ?_⟩
  · rw [hfn, hslots]
    exact h.reserved
  · rw [hfn]
    exact hactive
  · rw [hfn, hcontrol, hbody, Array.size_push]
  · rw [hfn, hq, h.block, hblock]
  · rw [hfn, hlabels, hblock]
    exact h.bounded

/-- An instruction with a result. -/
theorem simulates_result (h : g.At s n p) {type : Ir.Ty} {instr : Ir.Instr} {value : V}
    {effects : List (Effect V)} (hinstr : g.code.instruction p instr = some (value, effects))
    {a : Action V (Datum V)} (ha : a p.effects = .done ⟨type, value⟩ effects) :
    g.Simulates s p (Emit.build (Ir.Build.result type instr)) a (g.Value n) := by
  intro r t he ht
  rw [Emit.build_apply, Ir.Build.result_open h.function h.active] at he
  cases he
  have hline : g.lines[s.fn.body.size]? = some (.result (s.fn.temps + 1) instr) := by
    have hin := ht.lines
    rw [Emitter.fn_eq rfl] at hin
    exact hin.last
  let q : Point V := { p with
    control := .line (s.fn.body.size + 1)
    temps := Function.update p.temps (s.fn.temps + 1) value
    effects := effects }
  have hstep : g.code.next p = .go q := by
    rw [h.next hline, Code.line, hinstr]
  rw [ha]
  refine ⟨1, q, .one hstep, rfl, fun k hk => ?_, ?_, rfl, ?_, fun k hk => .inl ?_⟩
  · exact Function.update_of_ne (by omega) _ _
  · exact h.line rfl rfl rfl rfl h.active rfl rfl rfl rfl (cells_next h.cells hstep)
  · exact Function.update_self _ _ _
  · cases hk
    exact Nat.le_refl _

/-- An instruction without a result. -/
theorem simulates_effect (h : g.At s n p) {instr : Ir.Instr} {value : V} {effects : List (Effect V)}
    (hinstr : g.code.instruction p instr = some (value, effects)) {b : β} {a : Action V β}
    (ha : a p.effects = .done b effects) :
    g.Simulates s p (Emit.build (Ir.Build.effect instr)) a fun t q _ _ => g.At t n q := by
  intro r t he ht
  rw [Emit.build_apply, Ir.Build.effect, Ir.Build.push_open h.function h.active] at he
  cases he
  have hline : g.lines[s.fn.body.size]? = some (.effect instr) := by
    have hin := ht.lines
    rw [Emitter.fn_eq rfl] at hin
    exact hin.last
  let q : Point V := { p with control := .line (s.fn.body.size + 1), effects := effects }
  have hstep : g.code.next p = .go q := by
    rw [h.next hline, Code.line, hinstr]
  rw [ha]
  exact ⟨1, q, .one hstep, rfl, fun _ _ => rfl,
    h.line rfl rfl rfl rfl h.active rfl rfl rfl rfl (cells_next h.cells hstep)⟩

theorem Denotes.datum {operand : Operand} {v : Datum V} (h : g.Denotes s p operand v) :
    g.code.datum p.temps operand = v := by
  rw [Code.datum, h.type, h.value]

/-- What an instruction computes. -/
theorem simulates_compute (h : g.At s n p) {instr : Ir.Instr} {operation : Operation}
    {operands : List (Datum V)}
    (hinstr : g.code.operation p.temps instr = some (operation, operands)) (type : Ir.Ty) :
    g.Simulates s p (Emit.build (Ir.Build.result type instr))
      (Pure.pure (g.x.compute type operation operands)) (g.Value n) := by
  exact simulates_result h (g.code.instruction_operation hinstr) rfl

/-- Reading from an address. -/
theorem simulates_load (h : g.At s n p) {address : Operand} {v : Datum V}
    (hv : g.Denotes s p address v) (type : Ir.Ty) :
    g.Simulates s p (Emit.build (Ir.Build.load type address)) (g.x.load type v) (g.Value n) := by
  have heffect : g.code.effect p.temps (.load type address) = some (.load type v.value) := by
    rw [← hv.value]
    rfl
  exact simulates_result h (g.code.instruction_effect rfl heffect) rfl

/-- Writing to an address. -/
theorem simulates_store (h : g.At s n p) {content address : Operand} {c v : Datum V}
    (hc : g.Denotes s p content c) (hv : g.Denotes s p address v) :
    g.Simulates s p (Emit.build (Ir.Build.store content address)) (g.x.store c v)
      fun t q _ _ => g.At t n q := by
  have heffect : g.code.effect p.temps (.store content address) = some (.store c v.value) := by
    rw [← hv.value, ← hc.datum]
    rfl
  exact simulates_effect h (g.code.instruction_effect rfl heffect) rfl

/-- Calling a function. -/
theorem simulates_call (h : g.At s n p) {callee : Ref} {target : V} {args : List Operand}
    {values : List (Datum V)} (hcallee : g.code.value p.temps callee = target)
    (hargs : List.Forall₂ (g.Denotes s p) args values) (returns : Ir.Ty)
    (signature : Option Ir.Ty) :
    g.Simulates s p (Emit.build (Ir.Build.call returns callee args signature))
      (g.x.call returns target values signature) (g.Value n) := by
  have hmap : args.map (g.code.datum p.temps) = values := by
    induction hargs with
    | nil => rfl
    | cons harg _ ih => rw [List.map_cons, harg.datum, ih]
  have heffect : g.code.effect p.temps (.call (signature.getD returns) callee args) =
      some (.call (signature.getD returns) target values) := by
    rw [← hmap, ← hcallee]
    rfl
  have hinstr := g.code.instruction_effect rfl heffect
  unfold Ir.Build.call
  cases hvoid : returns.isVoid with
  | true =>
    have hcall : g.x.call returns target values signature p.effects =
        .done ⟨.void, g.x.machine.absent⟩
          (.call (signature.getD returns) target values :: p.effects) := by
      unfold Activation.call
      rw [hvoid]
      rfl
    intro r t he ht
    cases he
    have heffect := simulates_effect h hinstr hcall rfl ht
    rw [hcall] at heffect ⊢
    obtain ⟨k, q, hreach, heffects, hkept, hq⟩ := heffect
    exact ⟨k, q, hreach, heffects, hkept, hq, rfl, rfl, fun k hk => by cases hk⟩
  | false =>
    have hcall : g.x.call returns target values signature p.effects =
        .done ⟨returns, g.x.machine.answer
            (.call (signature.getD returns) target values :: p.effects)⟩
          (.call (signature.getD returns) target values :: p.effects) := by
      unfold Activation.call
      rw [hvoid]
      rfl
    exact simulates_result h hinstr hcall

/-- A change of the emitter that does not touch the function. -/
theorem Before.same (h : g.Before s n p) (hf : t.builder.function = s.builder.function)
    (hcontext : t.context = s.context) : g.Before t n p := by
  have hfn : t.fn = s.fn := by rw [Emitter.fn, hf, Emitter.fn]
  exact ⟨hf ▸ h.isOpen, hcontext.trans h.context, hfn ▸ h.reserved, h.cells⟩

theorem At.same (h : g.At s n p) (hf : t.builder.function = s.builder.function)
    (hcontext : t.context = s.context) (hlabels : s.builder.labels ≤ t.builder.labels) :
    g.At t n p := by
  have hfn : t.fn = s.fn := by rw [Emitter.fn, hf, Emitter.fn]
  exact ⟨h.toBefore.same hf hcontext, hfn ▸ h.active, hfn ▸ h.control, hfn ▸ h.block,
    fun k hk => (h.bounded k (hfn ▸ hk)).trans hlabels⟩

/-- A constant text. -/
theorem simulates_string (h : g.At s n p) (text : String) :
    g.Simulates s p (Emit.build (Ir.Build.string text))
      (Pure.pure ⟨.ptr, g.x.machine.text text⟩) (g.Value n) := by
  intro r t he ht
  rw [Emit.build_apply, Ir.Build.string_apply] at he
  have hvalue {number : Nat} (hnumber : g.texts number = some text) :
      g.Denotes t p ⟨.ptr, .string number⟩ ⟨.ptr, g.x.machine.text text⟩ := by
    refine ⟨rfl, ?_, fun k hk => by cases hk⟩
    show g.x.machine.text ((g.texts number).getD "") = _
    rw [hnumber]
    rfl
  cases hfind : s.builder.strings.findIdx? (· == text) with
  | some number =>
    rw [hfind] at he
    cases he
    obtain ⟨hlt, heq, -⟩ := Array.findIdx?_eq_some_iff_getElem.mp hfind
    have htext : s.builder.strings[number]? = some text := by
      rw [Array.getElem?_eq_getElem hlt, beq_iff_eq.mp heq]
    exact ⟨0, p, .refl p, rfl, .refl s p, h, hvalue (ht.texts _ _ htext)⟩
  | none =>
    rw [hfind] at he
    cases he
    refine ⟨0, p, .refl p, rfl, .refl s p, h.same rfl rfl (Nat.le_refl _), hvalue (ht.texts _ _ ?_)⟩
    show (s.builder.strings.push text)[s.builder.strings.size]? = some text
    rw [Array.getElem?_push, if_pos rfl]

/-- A slot is reserved for a cell. -/
theorem simulates_reserve (h : g.At s n p) (type : Ir.Ty) :
    g.Simulates s p (Emit.build (Ir.Build.slot type)) (Pure.pure (g.x.cell n)) (g.Value (n + 1)) := by
  intro r t he ht
  rw [Emit.build_apply, Ir.Build.slot_apply type h.function] at he
  cases he
  have hslot : g.slots[n]? = some (s.fn.temps + 1, type) := by
    have hin := ht.slots
    rw [Emitter.fn_eq rfl] at hin
    have hlast := hin.last
    rwa [h.reserved] at hlast
  refine ⟨0, p, .refl p, rfl, .refl s p, ⟨⟨rfl, h.context, ?_, h.cells⟩, h.active, h.control,
    h.block, h.bounded⟩, rfl, h.cells n _ _ hslot, fun k hk => ?_⟩
  · rw [Emitter.fn_eq rfl, Array.size_push, h.reserved]
  · cases hk
    exact .inr ⟨n, type, hslot⟩

/-- The address of a local, with its type. -/
theorem simulates_slot (h : g.At s n p) (id : LocalId) :
    g.Simulates s p (Emit.slot id) (Pure.pure (g.x.cell id.index)) fun t q r v =>
      g.Value n t q r.1 v ∧ r.2 = g.x.localType id := by
  intro r t he ht
  obtain ⟨u, s', hu, hr⟩ := Run.bind_eq_ok.mp he
  cases hu
  cases hfound : s.slots[id.index]? with
  | none =>
    rw [hfound] at hr
    cases hr
  | some found =>
    rw [hfound] at hr
    cases hr
    obtain ⟨address, type⟩ := r
    obtain ⟨⟨k, slotType, rfl, hslot⟩, l, hl, rfl⟩ := ht.locals _ _ _ hfound
    refine ⟨0, p, .refl p, rfl, .refl s p, ⟨h, rfl, h.cells _ _ _ hslot, fun j hj => ?_⟩, ?_⟩
    · cases hj
      exact .inr ⟨_, _, hslot⟩
    · rw [Activation.localType, hl]
      rfl

/-! ## Jumps -/

variable (g) in
/-- Control jumps to a label. -/
def Jumps (s : Emitter) (n : Nat) (label : Label) (p : Point V) : Prop :=
  g.Before s n p ∧ p.control = .enter label

variable (g) in
/-- Control jumps to a label, or is at the end of what was emitted so far. -/
def Arrives (s : Emitter) (n : Nat) (label : Label) (p : Point V) : Prop :=
  g.At s n p ∨ g.Jumps s n label p

theorem Before.elsewhere (h : g.Before s n p) (hq : g.Cells q) : g.Before s n q :=
  ⟨h.isOpen, h.context, h.reserved, hq⟩

theorem Arrives.before {label : Label} (h : g.Arrives s n label p) : g.Before s n p := by
  rcases h with h | h
  · exact h.toBefore
  · exact h.1

/-- A terminator is the next line, and the block is closed. -/
theorem At.terminate (h : g.At s n p) {terminator : Ir.Terminator} {r : Unit}
    (he : Emit.build (Ir.Build.terminate terminator) s = .ok r t) (ht : g.Within t) :
    g.code.next p = g.code.leave p terminator ∧ g.Before t n p := by
  rw [Emit.build_apply, Ir.Build.terminate_open h.function h.active] at he
  cases he
  have hline : g.lines[s.fn.body.size]? = some (.leave terminator) := by
    have hin := ht.lines
    rw [Emitter.fn_eq rfl] at hin
    exact hin.last
  exact ⟨h.next hline, rfl, h.context, h.reserved, h.cells⟩

/-- A jump. -/
theorem simulates_br (h : g.At s n p) (label : Label) :
    g.Simulates s p (Emit.build (Ir.Build.br label)) (Pure.pure ())
      fun t q _ _ => g.Jumps t n label q := by
  intro r t he ht
  obtain ⟨hnext, hbefore⟩ := h.terminate he ht
  exact ⟨1, { p with control := .enter label }, .one hnext, rfl, fun _ _ => rfl,
    ⟨hbefore.isOpen, hbefore.context, hbefore.reserved, h.cells⟩, rfl⟩

/-- A jump that a condition decides on. -/
theorem simulates_condBr (h : g.At s n p) {test : Operand} {v : Datum V}
    (hv : g.Denotes s p test v) (yes no : Label) :
    g.Simulates s p (Emit.build (Ir.Build.condBr test yes no)) (Pure.pure ())
      fun t q _ _ => g.Jumps t n (if g.x.machine.truth v.value then yes else no) q ∧
        q.block = s.fn.block := by
  intro r t he ht
  obtain ⟨hnext, hbefore⟩ := h.terminate he ht
  let q : Point V :=
    { p with control := .enter (if g.x.machine.truth v.value then yes else no) }
  have hgo : g.code.next p = .go q := by
    rw [hnext, Code.leave, hv.value]
    rfl
  exact ⟨1, q, .one hgo, rfl, fun _ _ => rfl,
    ⟨⟨hbefore.isOpen, hbefore.context, hbefore.reserved, h.cells⟩, rfl⟩, h.block⟩

/-- The function returns. -/
theorem simulates_ret (h : g.At s n p) {value : Option Operand} {v : Option (Datum V)}
    (hv : Option.Rel (g.Denotes s p) value v) :
    g.Simulates s p (Emit.build (Ir.Build.ret value)) (Pure.pure ()) fun t q _ _ =>
      g.Before t n q ∧ g.code.next q = .returned (v.filter (!·.type.isVoid)) := by
  intro r t he ht
  obtain ⟨hnext, hbefore⟩ := h.terminate he ht
  refine ⟨0, p, .refl p, rfl, .refl s p, hbefore, ?_⟩
  rw [hnext]
  cases hv with
  | none => rfl
  | @some operand datum hv =>
    show Next.returned (((some operand).filter (!·.type.isVoid)).map (g.code.datum p.temps)) = _
    cases hvoid : operand.type.isVoid with
    | true => simp [Option.filter, hvoid, ← hv.type]
    | false => simp [Option.filter, hvoid, ← hv.type, hv.datum]

/-- What is behind a label that is placed. -/
theorem Before.placed (h : g.Before s n p) {label : Label} {r : Unit}
    (he : Emit.build (Ir.Build.placeLabel label) s = .ok r t) :
    ∃ lines : Array Line, t.builder.function = some
        { s.fn with body := lines.push (.label label), block := label, terminated := false } ∧
      t.builder.labels = s.builder.labels ∧ t.context = s.context ∧
      (s.fn.terminated = false → lines = s.fn.body.push (.leave (.br label))) := by
  obtain ⟨f, hf⟩ := Option.isSome_iff_exists.mp h.isOpen
  obtain rfl := Emitter.fn_eq hf
  rw [Emit.build_apply] at he
  cases hclosed : s.fn.terminated with
  | true =>
    rw [Ir.Build.placeLabel_closed hf hclosed] at he
    cases he
    exact ⟨s.fn.body, rfl, rfl, rfl, fun h => by cases h⟩
  | false =>
    rw [Ir.Build.placeLabel_open hf hclosed] at he
    cases he
    exact ⟨_, rfl, rfl, rfl, fun _ => rfl⟩

/-- Control comes to a label where it is placed. -/
theorem Arrives.lands (h : g.Arrives s n (.numbered k) p) {r : Unit}
    (he : Emit.build (Ir.Build.placeLabel (.numbered k)) s = .ok r t) (ht : g.Within t)
    (hk : k ≤ s.builder.labels) :
    ∃ m q, g.code.Reaches (m + 1) p q ∧ q.effects = p.effects ∧ q.temps = p.temps ∧
      q.previous = p.block ∧ t.fn.block = .numbered k ∧ g.At t n q := by
  obtain ⟨lines, hf, hlabels, hcontext, hbody⟩ := h.before.placed he
  have hin : Begins (lines.push (.label (.numbered k))) g.lines := by
    have hin := ht.lines
    rwa [Emitter.fn_eq hf] at hin
  have hfind := find_label hin.last
  have henter (p' : Point V) (hcontrol : p'.control = .enter (.numbered k)) (hp' : g.Cells p') :
      ∃ q, g.code.next p' = .go q ∧ q.effects = p'.effects ∧ q.temps = p'.temps ∧
        q.previous = p'.block ∧ g.At t n q := by
    refine ⟨{ p' with
      control := .line (lines.size + 1), block := .numbered k, previous := p'.block },
      ?_, rfl, rfl, rfl, ⟨?_, hcontext.trans h.before.context, ?_, hp'⟩, ?_, ?_, ?_, ?_⟩
    · unfold Code.next
      rw [hcontrol]
      dsimp only
      rw [hfind]
    · rw [hf]
      rfl
    · rw [Emitter.fn_eq hf]
      exact h.before.reserved
    · rw [Emitter.fn_eq hf]
    · rw [Emitter.fn_eq hf, Array.size_push]
    · rw [Emitter.fn_eq hf]
    · rw [Emitter.fn_eq hf, hlabels]
      intro j hj
      cases hj
      exact hk
  have hblock : t.fn.block = .numbered k := by rw [Emitter.fn_eq hf]
  rcases h with h | ⟨h, hcontrol⟩
  · obtain rfl := hbody h.active
    have hline : g.lines[s.fn.body.size]? = some (.leave (.br (.numbered k))) :=
      ((Begins.push _ _).trans hin).last
    obtain ⟨q, hgo, heffects, htemps, hprevious, hat⟩ :=
      henter { p with control := .enter (.numbered k) } rfl h.cells
    exact ⟨1, q, .step (h.next hline) (.one hgo), heffects, htemps, hprevious, hblock, hat⟩
  · obtain ⟨q, hgo, heffects, htemps, hprevious, hat⟩ := henter p hcontrol h.cells
    exact ⟨0, q, .one hgo, heffects, htemps, hprevious, hblock, hat⟩

/-- Control goes on behind a label. -/
theorem simulates_placeLabel (h : g.Arrives s n (.numbered k) p) (hk : k ≤ s.builder.labels) :
    g.Simulates s p (Emit.build (Ir.Build.placeLabel (.numbered k))) (Pure.pure ()) fun t q _ _ =>
      g.At t n q ∧ t.fn.block = .numbered k ∧ q.previous = p.block := by
  intro r t he ht
  obtain ⟨m, q, hreach, heffects, htemps, hprevious, hblock, hat⟩ := h.lands he ht hk
  exact ⟨m + 1, q, hreach, heffects, fun j _ => congrFun htemps j, hat, hblock, hprevious⟩

/-! ## What control jumps over -/

/-- More was emitted while control has jumped. -/
theorem Before.grow {keep : LoopId → Prop} {m : Nat} (h : g.Before s n p)
    (hst : s.Grows keep m t) : g.Before t (n + m) p := by
  obtain ⟨f, hf⟩ := Option.isSome_iff_exists.mp h.isOpen
  obtain rfl := Emitter.fn_eq hf
  obtain ⟨f', hf', hadds⟩ := hst.builder.function _ hf
  refine ⟨hf' ▸ rfl, hst.context.trans h.context, ?_, h.cells⟩
  rw [Emitter.fn_eq hf', hadds.cells, h.reserved]

theorem Before.jumped (h : g.Before s n p) {label : Label} {r : Unit}
    (he : Emit.build (Ir.Build.placeLabel label) s = .ok r t) : g.Before t n p := by
  obtain ⟨lines, hf, -, hcontext, -⟩ := h.placed he
  exact ⟨hf ▸ rfl, hcontext.trans h.context, by rw [Emitter.fn_eq hf]; exact h.reserved, h.cells⟩

/-- A part of emission that control jumps over. -/
theorem Simulates.around {e : Emit α} {f : α → Emit γ} {c : Action V δ}
    {post : Emitter → Point V → γ → δ → Prop} [he : Emit.Extending e]
    (hs : s.builder.function.isSome = true)
    (h : ∀ r t, e s = .ok r t → g.Simulates t p (f r) c post) : g.Simulates s p (e >>= f) c post := by
  intro r u hrun hu
  obtain ⟨a, t, hx, hy⟩ := Run.bind_eq_ok.mp hrun
  exact (h a t hx hy hu).earlier (extends_fn (he.kept hx) hs).2.temps

theorem Jumps.grow {keep : LoopId → Prop} {m : Nat} {label : Label} (h : g.Jumps s n label p)
    (hst : s.Grows keep m t) : g.Jumps t (n + m) label p := ⟨h.1.grow hst, h.2⟩

/-- A step that control jumps over. -/
theorem Simulates.over {e : Emit α} {f : α → Emit γ} {c : Action V δ} {label : Label}
    {post : Emitter → Point V → γ → δ → Prop} [he : Emit.Growing (fun _ => False) 0 e]
    (h : g.Jumps s n label p)
    (hnext : ∀ r t, s.builder.labels ≤ t.builder.labels → g.Jumps t n label p →
      g.Simulates t p (f r) c post) : g.Simulates s p (e >>= f) c post :=
  .around h.1.isOpen fun r t hx => hnext r t (he.grows hx).builder.labels (h.grow (he.grows hx))

/-- A label that control jumps over. -/
theorem Simulates.overLabel {f : Unit → Emit γ} {c : Action V δ} {other label : Label}
    {post : Emitter → Point V → γ → δ → Prop} (h : g.Jumps s n label p)
    (hnext : ∀ t, s.builder.labels ≤ t.builder.labels → g.Jumps t n label p →
      g.Simulates t p (f ()) c post) :
    g.Simulates s p (Emit.build (Ir.Build.placeLabel other) >>= f) c post :=
  .around h.1.isOpen fun _ t hx =>
    hnext t (Emit.Extending.kept hx).builder.labels ⟨h.1.jumped hx, h.2⟩

/-! ## Labels -/

end Stage

/-- A label is taken. -/
def Emitter.relabeled (s : Emitter) : Emitter :=
  { s with builder := { s.builder with labels := s.builder.labels + 1 } }

namespace Stage

variable {V : Type} {g : Stage V} {s t : Emitter} {p : Point V} {n least : Nat}

theorem At.relabeled (h : g.At s n p) : g.At s.relabeled n p := h.same rfl rfl (Nat.le_succ _)

theorem later_relabeled (s : Emitter) (p : Point V) : Later s p s.relabeled p :=
  ⟨.refl s p, Nat.le_refl _, Nat.le_succ _⟩

theorem Denotes.relabeled {operand : Operand} {v : Datum V} (h : g.Denotes s p operand v) :
    g.Denotes s.relabeled p operand v := ⟨h.type, h.value, h.known⟩

/-- A label is taken for what follows. -/
theorem Simulates.newLabel {β γ : Type} {f : Label → Emit γ} {c : Action V β}
    {post : Emitter → Point V → γ → β → Prop}
    (h : g.Simulates s.relabeled p (f (.numbered (s.builder.labels + 1))) c post) :
    g.Simulates s p (Emit.build Ir.Build.newLabel >>= f) c post := fun _ _ he ht => h he ht

/-! ## Loops -/

/-- A loop whose rounds begin with a step: an invariant holds where a round starts, and a round leads
to where the next one starts or to the end of the loop. -/
theorem outcome_rounds {σ β : Type} {round : σ → Action V (σ ⊕ β)} (inv : σ → Point V → Prop)
    {post : Point V → β → Prop}
    (hround : ∀ start q, Kept s p q → inv start q → ∃ k q₁, g.code.Reaches (k + 1) q q₁ ∧
      q₁.effects = q.effects ∧ Kept s q q₁ ∧
      g.Outcome s q₁ least (fun q' r => match r with
        | .inl next => inv next q'
        | .inr b => post q' b) (round start q.effects))
    {start : σ} (h : inv start p) (hn : n ≤ least) :
    g.Outcome s p n post (Action.rounds round n start p.effects) := by
  have hrounds (start : σ) (q : Point V) (hq : Kept s p q) (hinv : inv start q) :
      g.Outcome s q n post (Action.rounds round n start q.effects) := by
    induction n generalizing start q with
    | zero => exact ⟨0, q, .refl q, rfl, Nat.le_refl _⟩
    | succ n ih =>
      obtain ⟨k, q₁, hreach, heffects, hkept, hout⟩ := hround start q hq hinv
      have hfirst := hout.reaches hreach hkept (Nat.le_add_left _ _)
      rw [Action.rounds, Action.bind_apply]
      cases hdone : round start q.effects with
      | cut effects =>
        rw [hdone] at hfirst
        obtain ⟨m, r, hreach', hr, hm⟩ := hfirst
        exact ⟨m, r, hreach', hr, hn.trans hm⟩
      | done next effects =>
        rw [hdone] at hout
        obtain ⟨m, r, hreach', rfl, hkept', hr⟩ := hout
        have hlater : Kept s q r := hkept.trans hkept'
        have hsteps : g.code.Reaches (k + 1 + m) q r := hreach.trans hreach'
        cases next with
        | inr b => exact ⟨k + 1 + m, r, hsteps, rfl, hlater, hr⟩
        | inl next =>
          have hrest := ih (by omega) next r (hq.trans hlater) hr
          exact hrest.reaches hsteps hlater (by omega)
  exact hrounds start p (.refl s p) h

end Stage

end OwnLang
