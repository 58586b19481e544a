import OwnLang.Proofs.Emit.Simulate

/-!
# Executing emitted expressions

The code of every kind of expression has the effects of evaluating it, in the same order, and what it
results in stands for the value. The induction over the forms of expressions is `simulates_emitExpr`.
-/

namespace OwnLang

open Ir (Line Label Operand Ref)
open Exec

namespace Stage

variable {V : Type} {g : Stage V} {s t : Emitter} {p q : Point V} {n : Nat}

/-! ## Reading the state of emission -/

theorem Before.irType (h : g.Before s n p) (type : Ty) :
    Emit.irType type s = .ok (g.x.irType type) s := by
  show Outcome.ok (s.context.irType type) s = _
  rw [h.context]
  rfl

theorem Before.symbolOf (h : g.Before s n p) (id : GlobalId) :
    Emit.symbolOf id s = .ok (.symbol (g.x.program.global id).symbol) s := by
  show Outcome.ok (Ref.symbol (s.context.global id).symbol) s = _
  rw [h.context]

theorem Before.program (h : g.Before s n p) : Emit.context s = .ok g.x.program s := by
  show Outcome.ok s.context s = _
  rw [h.context]

theorem Before.byteSize (h : g.Before s n p) {type : Ty} {size : Nat}
    (he : Emit.byteSize type s = .ok size t) : size = g.x.sizeOf type ∧ t = s := by
  obtain ⟨c, s', hc, hsize⟩ := Run.bind_eq_ok.mp he
  rw [h.program] at hc
  cases hc
  unfold Activation.sizeOf
  cases hfound : g.x.program.sizeOf? type with
  | none =>
    rw [hfound] at hsize
    cases hsize
  | some found =>
    rw [hfound] at hsize
    cases hsize
    exact ⟨rfl, rfl⟩

theorem Before.elementsSize (h : g.Before s n p) {element : Ty} {count bytes : Nat}
    (he : Emit.elementsSize element count s = .ok bytes t) :
    bytes = g.x.sizeOf element * count ∧ t = s := by
  obtain ⟨size, s', hsize, hbytes⟩ := Run.bind_eq_ok.mp he
  obtain ⟨rfl, rfl⟩ := h.byteSize hsize
  unfold boundedSize at hbytes
  by_cases hlt : g.x.sizeOf element * count < wordBound
  · rw [if_pos hlt] at hbytes
    cases hbytes
    exact ⟨rfl, rfl⟩
  · rw [if_neg hlt] at hbytes
    cases hbytes

/-- A format is a constant text that takes as many values as there are. -/
theorem requireFormat_eq_ok {format : Core.Expr} {values : Nat} {span : Span}
    {pieces : List String} (he : Emit.requireFormat format values span s = .ok pieces t) :
    format.constant = some (.str (Activation.formatText format)) ∧
      pieces = piecesOf '%' (Activation.formatText format) ∧ pieces.length - 1 = values ∧ t = s := by
  unfold Emit.requireFormat at he
  unfold Activation.formatText
  cases hconstant : format.constant with
  | none =>
    simp only [hconstant] at he
    cases he
  | some known =>
    cases known with
    | str text =>
      simp only [hconstant] at he
      split at he
      · cases he
      · rename_i hcount
        cases he
        exact ⟨rfl, rfl, by simpa using hcount, rfl⟩
    | _ =>
      simp only [hconstant] at he
      cases he

/-! ## Operands -/

/-- An operand that is no temporary. -/
theorem denotes_fixed {operand : Operand} (h : ∀ k, operand.ref ≠ .temp k) :
    g.Denotes s p operand ⟨operand.type, g.code.fixed operand.ref⟩ where
  type := rfl
  value := by
    unfold Code.value
    split
    · rename_i k hk
      exact absurd hk (h k)
    · rfl
  known k hk := absurd hk (h k)

theorem denotes_word (bits : Nat) (k : Int) :
    g.Denotes s p ⟨.int bits, .int k⟩ (g.x.word bits k) :=
  denotes_fixed fun _ h => by cases h

/-! ## Sequences of parts -/

/-- Loops over related lists, whose rounds are simulated one by one. -/
theorem simulates_forIn {γ δ : Type} {R : γ → δ → Prop} {xs : List γ} {ys : List δ}
    (hxy : List.Forall₂ R xs ys) {f : γ → PUnit → Emit (ForInStep PUnit)}
    {f' : δ → PUnit → Action V (ForInStep PUnit)} [hf : ∀ i, Emit.Extending (f i ⟨⟩)]
    (h : g.At s n p)
    (hround : ∀ i j t q, R i j → Later s p t q → g.At t n q →
      g.Simulates t q (f i ⟨⟩) (f' j ⟨⟩) fun t q r r' =>
        g.At t n q ∧ r = .yield ⟨⟩ ∧ r' = .yield ⟨⟩) :
    g.Simulates s p (forIn xs ⟨⟩ f) (forIn ys ⟨⟩ f') fun t q _ _ => g.At t n q := by
  induction hxy generalizing s p with
  | nil => exact .pure h
  | @cons i j rest rest' hij _ ih =>
    rw [List.forIn_cons, List.forIn_cons]
    refine .chain inferInstance (fun r => ?_) h.isOpen (hround i j s p hij (.refl s p) h)
      fun r t q r' _ hlater hq => ?_
    · cases r with
      | done b => exact inferInstanceAs (Emit.Extending (Pure.pure b))
      | yield b => exact Emit.extending_forIn rest
    · obtain ⟨hat, rfl, rfl⟩ := hq
      exact ih hat fun i j u r hij hlater' hat' => hround i j u r hij (hlater.trans hlater') hat'

variable (g) in
/-- A rendering stands for what is shown. -/
structure Shows (s : Emitter) (p : Point V) (rendering : Rendering) (shown : Shown V) : Prop where
  format : rendering.format = shown.format
  args : List.Forall₂ (g.Denotes s p) rendering.args shown.args

theorem Denotes.after {operand : Operand} {v : Datum V} {m : Nat} (h : g.Denotes s p operand v)
    (hp : g.At s n p) (hlater : Later s p t q) (hq : g.At t m q) : g.Denotes t q operand v :=
  h.later hlater hp.cells hq.cells

theorem Shows.after {rendering : Rendering} {shown : Shown V} {m : Nat}
    (h : g.Shows s p rendering shown) (hp : g.At s n p) (hlater : Later s p t q)
    (hq : g.At t m q) : g.Shows t q rendering shown :=
  ⟨h.format, h.args.imp fun _ _ harg => harg.after hp hlater hq⟩

/-- Renderings of the elements of a list. -/
theorem simulates_mapM {γ : Type} (xs : List γ) {f : γ → Emit Rendering}
    {f' : γ → Action V (Shown V)} (hf : ∀ i, Emit.Extending (f i)) (h : g.At s n p)
    (hpart : ∀ i t q, Later s p t q → g.At t n q →
      g.Simulates t q (f i) (f' i) fun t q r r' => g.At t n q ∧ g.Shows t q r r') :
    g.Simulates s p (xs.mapM f) (xs.mapM f') fun t q r r' =>
      g.At t n q ∧ List.Forall₂ (g.Shows t q) r r' := by
  induction xs generalizing s p with
  | nil =>
    rw [List.mapM_nil, List.mapM_nil]
    exact .pure ⟨h, .nil⟩
  | cons i rest ih =>
    rw [List.mapM_cons, List.mapM_cons]
    refine .bind h.isOpen (hpart i s p (.refl s p) h) fun r t q r' _ hlater hq => ?_
    refine .bind hq.1.isOpen (ih hq.1 fun j u q' hlater' hat => hpart j u q' (hlater.trans hlater') hat)
      fun rs u q' rs' _ hlater' hq' => .pure ⟨hq'.1, .cons ?_ hq'.2⟩
    exact hq.2.after hq.1 hlater' hq'.1

/-! ## Allocating and releasing -/

theorem simulates_allocate (h : g.At s n p) {size : Operand} {v : Datum V}
    (hv : g.Denotes s p size v) :
    g.Simulates s p (Emit.allocate size) (g.x.allocate v) (g.Value n) :=
  simulates_call h rfl (.cons hv .nil) .ptr none

theorem simulates_heapCopy (h : g.At s n p) {value : Operand} {v : Datum V}
    (hv : g.Denotes s p value v) (size : Nat) :
    g.Simulates s p (Emit.heapCopy value size) (g.x.heapCopy v size) (g.Value n) := by
  unfold Emit.heapCopy Activation.heapCopy
  refine .bind h.isOpen (simulates_allocate h (denotes_word 64 size))
    fun pointer t q v' _ hlater hq => ?_
  refine .bind hq.1.isOpen (simulates_store hq.1 (hv.after h hlater hq.1) hq.2)
    fun _ u q' _ _ hlater' hat => ?_
  exact .pure ⟨hat, hq.2.after hq.1 hlater' hat⟩

theorem simulates_extract (h : g.At s n p) {value : Operand} {v : Datum V}
    (hv : g.Denotes s p value v) (type : Ir.Ty) (index : Nat) :
    g.Simulates s p (Emit.extract type value index) (Pure.pure (g.x.extract type v index))
      (g.Value n) := by
  refine simulates_compute h ?_ type
  rw [← hv.datum]
  rfl

theorem simulates_release : ∀ (type : Ty) {s : Emitter} {p : Point V} {value : Operand} {v : Datum V},
    g.At s n p → g.Denotes s p value v →
      g.Simulates s p (Emit.release value type) (g.x.release v type) fun t q _ _ => g.At t n q
  | .mk (.owner ..) _, s, p, value, v, h, hv => by
    unfold Emit.release Activation.release
    exact .bind h.isOpen (simulates_call h rfl (.cons hv .nil) .void none)
      fun _ t q _ _ _ hq => .pure hq.1
  | .mk (.array element _ (some size)) _, s, p, value, v, h, hv => by
    unfold Emit.release Activation.release
    split
    · refine .skip (h.irType element) ?_
      refine .bind h.isOpen (simulates_forIn (R := Eq) (List.forall₂_refl _) h
        fun index _ t q heq hlater hat => ?_) fun _ t q _ _ _ hat => .pure hat
      obtain rfl := heq
      refine .seq hat.isOpen (simulates_extract hat (hv.after h hlater hat) _ index)
        fun part t q _ _ hq => ?_
      refine .bind hq.1.isOpen (simulates_release element hq.1 hq.2) fun _ u q' _ _ _ hat' => ?_
      exact .pure ⟨hat', rfl, rfl⟩
    · exact .pure h
  | .mk (.int _) _, s, p, value, v, h, hv | .mk .bool _, s, p, value, v, h, hv
  | .mk .void _, s, p, value, v, h, hv | .mk (.func ..) _, s, p, value, v, h, hv
  | .mk (.shared ..) _, s, p, value, v, h, hv | .mk (.array _ _ none) _, s, p, value, v, h, hv
  | .mk (.struct ..) _, s, p, value, v, h, hv => by
    unfold Emit.release Activation.release
    exact .pure h

theorem simulates_dropLocals (ids : List LocalId) (h : g.At s n p) :
    g.Simulates s p (Emit.dropLocals ids) (g.x.dropLocals ids) fun t q _ _ => g.At t n q := by
  induction ids generalizing s p with
  | nil => exact .pure h
  | cons id rest ih =>
    unfold Emit.dropLocals Activation.dropLocals
    refine .seq h.isOpen (simulates_slot h id) fun (address, type) t q _ _ hq => ?_
    obtain ⟨⟨hat, haddress⟩, rfl⟩ := hq
    refine .skip (hat.irType _) ?_
    refine .bind hat.isOpen (simulates_load hat haddress _) fun value u q' v _ _ hv => ?_
    refine .bind hv.1.isOpen (simulates_release _ hv.1 hv.2) fun _ _ _ _ _ _ hat' => ih hat'

/-! ## Formatted output -/

theorem Shows.plain (text : String) : g.Shows s p (.plain text) (.plain text) := ⟨rfl, .nil⟩

theorem Shows.conversion (spec : String) {value : Operand} {v : Datum V}
    (hv : g.Denotes s p value v) : g.Shows s p (.conversion spec value) (.conversion spec v) :=
  ⟨rfl, .cons hv .nil⟩

theorem Shows.append {a b : Rendering} {a' b' : Shown V} (ha : g.Shows s p a a')
    (hb : g.Shows s p b b') : g.Shows s p (a ++ b) (a' ++ b') :=
  ⟨congrArg₂ (· ++ ·) ha.format hb.format, List.rel_append ha.args hb.args⟩

theorem Shows.joined (separator : String) {rs : List Rendering} {rs' : List (Shown V)}
    (h : List.Forall₂ (g.Shows s p) rs rs') :
    g.Shows s p (.joined separator rs) (.joined separator rs') := by
  induction h with
  | nil => exact .plain ""
  | cons hr hrest ih =>
    cases hrest with
    | nil => exact hr
    | cons hr' hrest' => exact (hr.append (.plain separator)).append ih

theorem simulates_boolText (h : g.At s n p) {value : Operand} {v : Datum V}
    (hv : g.Denotes s p value v) :
    g.Simulates s p (Emit.boolText value) (Pure.pure (g.x.boolText v)) (g.Value n) := by
  unfold Emit.boolText
  refine .seq h.isOpen (simulates_string h "true") fun yes t q _ hlater hyes => ?_
  refine .seq hyes.1.isOpen (simulates_string hyes.1 "false") fun no u q' _ hlater' hno => ?_
  have hv' := hv.after h (hlater.trans hlater') hno.1
  have hyes' := hyes.2.after hyes.1 hlater' hno.1
  refine simulates_compute hno.1 ?_ .ptr
  rw [← hv'.datum, ← hyes'.datum, ← hno.2.datum]
  rfl

theorem simulates_renderPointer (h : g.At s n p) {value : Operand} {v : Datum V}
    (hv : g.Denotes s p value v) (type : Ty) (span : Span) :
    g.Simulates s p (Emit.renderPointer value type span) (g.x.showPointer v type)
      fun t q r r' => g.At t n q ∧ g.Shows t q r r' := by
  unfold Emit.renderPointer Activation.showPointer
  refine .skip h.program ?_
  cases Emit.stringMethod? g.x.program type with
  | none => exact .reject
  | some method =>
    refine .skip (h.symbolOf method) ?_
    refine .bind h.isOpen (simulates_call h rfl (.cons hv .nil) .ptr none) fun text t q v' _ _ hq => ?_
    exact .pure ⟨hq.1, .conversion "%s" hq.2⟩

/-- What is given of structs is rendered. -/
theorem simulates_renderGiven {renderStruct : StructId → Operand → Emit Rendering}
    {showStruct : StructId → Datum V → Action V (Shown V)} (span : Span)
    (hgrow : ∀ id value, Emit.Growing (fun _ => False) 0 (renderStruct id value))
    (hstruct : ∀ id s p value v, g.At s n p → g.Denotes s p value v →
      g.Simulates s p (renderStruct id value) (showStruct id v) fun t q r r' =>
        g.At t n q ∧ g.Shows t q r r') :
    ∀ (type : Ty) {s : Emitter} {p : Point V} {value : Operand} {v : Datum V},
      g.At s n p → g.Denotes s p value v →
        g.Simulates s p (Emit.renderGiven renderStruct span value type)
          (g.x.showGiven showStruct v type) fun t q r r' => g.At t n q ∧ g.Shows t q r r'
  | .mk (.int .w64) _, s, p, value, v, h, hv => by
    unfold Emit.renderGiven Activation.showGiven
    exact .pure ⟨h, .conversion _ hv⟩
  | .mk (.int .w32) _, s, p, value, v, h, hv => by
    unfold Emit.renderGiven Activation.showGiven
    exact .pure ⟨h, .conversion _ hv⟩
  | .mk (.int .w16) _, s, p, value, v, h, hv | .mk (.int .w8) _, s, p, value, v, h, hv => by
    unfold Emit.renderGiven Activation.showGiven
    refine .seq h.isOpen (simulates_compute h ?_ _) fun widened t q _ _ hq =>
      .pure ⟨hq.1, .conversion _ hq.2⟩
    rw [← hv.datum]
    rfl
  | .mk .bool _, s, p, value, v, h, hv => by
    unfold Emit.renderGiven Activation.showGiven
    exact .seq h.isOpen (simulates_boolText h hv) fun text t q _ _ hq =>
      .pure ⟨hq.1, .conversion _ hq.2⟩
  | .mk (.array element _ (some size)) _, s, p, value, v, h, hv => by
    unfold Emit.renderGiven Activation.showGiven
    have hpart (part : Operand) := Emit.growing_renderGiven span hgrow part element
    refine .skip (h.irType element) ?_
    refine .bind h.isOpen (simulates_mapM (List.range size) inferInstance h
      fun index t q hlater hat => ?_)
      fun parts t q parts' _ _ hq => ?_
    · refine .seq hat.isOpen (simulates_extract hat (hv.after h hlater hat) _ index)
        fun part t q _ _ hq => ?_
      exact simulates_renderGiven span hgrow hstruct element hq.1 hq.2
    · exact .pure ⟨hq.1, ((Shows.plain "[").append (.joined ", " hq.2)).append (.plain "]")⟩
  | .mk (.struct id _) _, s, p, value, v, h, hv => hstruct id s p value v h hv
  | .mk .void _, s, p, value, v, h, hv | .mk (.func ..) _, s, p, value, v, h, hv
  | .mk (.shared ..) _, s, p, value, v, h, hv | .mk (.owner ..) _, s, p, value, v, h, hv
  | .mk (.array _ _ none) _, s, p, value, v, h, hv => by
    unfold Emit.renderGiven Activation.showGiven
    split
    · exact .pure ⟨h, .conversion _ hv⟩
    · exact simulates_renderPointer h hv _ span

theorem simulates_renderStructTo (span : Span) (depth : Nat) (id : StructId) (s : Emitter)
    (p : Point V) (value : Operand) (v : Datum V) (h : g.At s n p) (hv : g.Denotes s p value v) :
    g.Simulates s p (Emit.renderStructTo span depth id value) (g.x.showStructTo depth id v)
      fun t q r r' => g.At t n q ∧ g.Shows t q r r' := by
  induction depth generalizing id s p value v with
  | zero => exact .stop
  | succ depth ih =>
    unfold Emit.renderStructTo Activation.showStructTo
    refine .skip h.program ?_
    have hgrow : ∀ id value, Emit.Growing (fun _ => False) 0
        (Emit.renderStructTo span depth id value) := Emit.growing_renderStructTo span depth
    have hfield (i : Field × Nat) : Emit.Extending (Emit.renderField
        (Emit.renderGiven (Emit.renderStructTo span depth) span) value i.1 i.2) :=
      have hfield := Emit.growing_renderField (Emit.growing_renderGiven span hgrow) value i.1 i.2
      inferInstance
    refine .chain (@Emit.extending_mapM _ _ _ _ hfield) inferInstance h.isOpen
      (simulates_mapM _ hfield h fun i t q hlater hat => ?_)
      fun parts t q parts' _ _ hq => ?_
    · obtain ⟨field, index⟩ := i
      unfold Emit.renderField Activation.showField
      have hshown (part : Operand) := Emit.growing_renderGiven span hgrow part field.type
      refine .skip (hat.irType _) ?_
      refine .seq hat.isOpen (simulates_extract hat (hv.after h hlater hat) _ index)
        fun part u q' _ _ hpart => ?_
      refine .bind hpart.1.isOpen (simulates_renderGiven span hgrow ih field.type hpart.1 hpart.2)
        fun shown r q'' shown' _ _ hq => ?_
      exact .pure ⟨hq.1, (Shows.plain _).append hq.2⟩
    · exact .pure ⟨hq.1, ((Shows.plain _).append (.joined ", " hq.2)).append (.plain "\x7d")⟩

theorem simulates_render (h : g.At s n p) {value : Operand} {v : Datum V}
    (hv : g.Denotes s p value v) (type : Ty) (span : Span) :
    g.Simulates s p (Emit.render value type span) (g.x.display v type)
      fun t q r r' => g.At t n q ∧ g.Shows t q r r' := by
  unfold Emit.render
  refine .skip h.program ?_
  exact simulates_renderGiven span (Emit.growing_renderStructTo span _)
    (simulates_renderStructTo span _) type h hv

variable (g) in
/-- A value that is freed behind the output. -/
def Owns (s : Emitter) (p : Point V) (owned : Operand × Ty) (owned' : Datum V × Ty) : Prop :=
  g.Denotes s p owned.1 owned'.1 ∧ owned.2 = owned'.2

theorem simulates_callPrintf (h : g.At s n p) {rendering : Rendering} {shown : Shown V}
    (hshown : g.Shows s p rendering shown) :
    g.Simulates s p (Emit.callPrintf rendering)
      (g.x.call (.int 32) (g.x.machine.symbol "printf")
        (⟨.ptr, g.x.machine.text shown.format⟩ :: shown.args) (some Emit.printfType))
      fun t q _ _ => g.At t n q := by
  unfold Emit.callPrintf
  refine .seq h.isOpen (simulates_string h _) fun format t q _ hlater hformat => ?_
  rw [hshown.format] at hformat
  have hshown' := hshown.after h hlater hformat.1
  have hcallee : g.code.value q.temps (.symbol "printf") = g.x.machine.symbol "printf" := rfl
  have hcall := simulates_call hformat.1 hcallee (.cons hformat.2 hshown'.args) (.int 32)
    (some Emit.printfType)
  rw [← bind_pure (g.x.call _ _ _ _)]
  exact .bind hformat.1.isOpen hcall fun result u q' v _ _ hq => .pure hq.1

theorem simulates_print (h : g.At s n p) {rendering : Rendering} {shown : Shown V}
    (hshown : g.Shows s p rendering shown) (newline : Bool) {owned : List (Operand × Ty)}
    {owned' : List (Datum V × Ty)} (howned : List.Forall₂ (g.Owns s p) owned owned') :
    g.Simulates s p (Emit.printValues rendering newline owned) (g.x.print shown newline owned')
      fun t q _ _ => g.At t n q := by
  unfold Emit.printValues Activation.print
  have hending : g.Shows s p (rendering ++ ⟨if newline then "\n" else "", []⟩)
      ⟨shown.format ++ if newline then "\n" else "", shown.args⟩ :=
    ⟨congrArg (· ++ _) hshown.format, by
      show List.Forall₂ _ (rendering.args ++ []) _
      rw [List.append_nil]
      exact hshown.args⟩
  refine .bind h.isOpen (simulates_callPrintf h hending) fun _ t q _ _ hlater hat => ?_
  refine .bind hat.isOpen (simulates_forIn howned hat fun i j u q' hij hlater' hat' => ?_)
    fun _ _ _ _ _ _ hat => .pure hat
  obtain ⟨value, type⟩ := i
  obtain ⟨v, type'⟩ := j
  obtain ⟨hv, rfl⟩ := hij
  refine .bind hat'.isOpen (simulates_release type hat' (hv.after h (hlater.trans hlater') hat'))
    fun _ _ _ _ _ _ hat => .pure ⟨hat, rfl, rfl⟩

/-! ## Parts of expressions -/

theorem simulates_constant (h : g.At s n p) (known : Const) (type : Ty) :
    g.Simulates s p (Emit.constantOperand known type) (Pure.pure (g.x.constant known type))
      (g.Value n) := by
  unfold Emit.constantOperand Activation.constant
  cases known with
  | int k =>
    refine .skip (h.irType type) ?_
    exact .pure ⟨h, denotes_fixed fun _ hk => by cases hk⟩
  | bool b => exact .pure ⟨h, denotes_fixed fun _ hk => by cases hk⟩
  | str text => exact simulates_string h text

theorem simulates_cast (h : g.At s n p) {value : Operand} {v : Datum V}
    (hv : g.Denotes s p value v) (how : Core.Cast) :
    g.Simulates s p (Emit.emitCast value how) (Pure.pure (g.x.convert v how)) (g.Value n) := by
  have hconvert (how : Ir.Conversion) (type : Ir.Ty) :
      g.code.operation p.temps (.convert how value type) = some (.convert how type, [v]) := by
    rw [← hv.datum]
    rfl
  unfold Emit.emitCast Activation.convert
  cases how with
  | pointer => exact .pure ⟨h, hv⟩
  | int source target =>
    dsimp only
    split
    · exact simulates_compute h (hconvert _ _) _
    · split
      · exact simulates_compute h (hconvert _ _) _
      · exact .pure ⟨h, hv⟩

theorem simulates_promote (h : g.At s n p) {value : Operand} {v : Datum V}
    (hv : g.Denotes s p value v) (type : Ty) :
    g.Simulates s p (Emit.promote value type) (Pure.pure (g.x.promote v type)) (g.Value n) := by
  have hconvert (how : Ir.Conversion) :
      g.code.operation p.temps (.convert how value (.int 32)) = some (.convert how (.int 32), [v]) := by
    rw [← hv.datum]
    rfl
  unfold Emit.promote Activation.promote
  dsimp only
  cases type.shape with
  | int width =>
    dsimp only
    split
    · exact simulates_compute h (hconvert _) _
    · exact .pure ⟨h, hv⟩
  | bool => exact simulates_compute h (hconvert _) _
  | _ => exact .pure ⟨h, hv⟩

theorem simulates_unary (h : g.At s n p) {value : Operand} {v : Datum V}
    (hv : g.Denotes s p value v) (op : Surface.UnaryOp) :
    g.Simulates s p (Emit.build (Ir.Build.result value.type (Emit.unaryInstr op value)))
      (Pure.pure (g.x.unary op v)) (g.Value n) := by
  obtain rfl := hv.datum
  cases op with
  | neg => exact simulates_compute h rfl value.type
  | not => exact simulates_compute h rfl value.type

/-- Two operands are evaluated, and then computed with. -/
theorem simulates_both {left right : Emit Operand} {a b : Action V (Datum V)} {m k : Nat}
    [Emit.Extending left] [Emit.Extending right] (h : g.At s n p)
    (hl : g.Simulates s p left a (g.Value m))
    (hr : ∀ t q, g.At t m q → g.Simulates t q right b (g.Value k)) (type : Ty)
    {instr : Operand → Ref → Ir.Instr} {operation : Operation}
    (hinstr : ∀ temps left right, g.code.operation temps (instr left right) =
      some (operation, [g.code.datum temps left, g.code.datum temps ⟨left.type, right⟩])) :
    g.Simulates s p (Emit.bothOperands type instr left right)
      (do return g.x.both type operation (← a) (← b)) (g.Value k) := by
  unfold Emit.bothOperands
  refine .bind h.isOpen hl fun x t q v _ _ hx => ?_
  refine .bind hx.1.isOpen (hr t q hx.1) fun y u q' w _ hlater hy => ?_
  refine .skip (hy.1.irType type) ?_
  have hx' := hx.2.after hx.1 hlater hy.1
  refine simulates_compute hy.1 ?_ _
  rw [hinstr, hx'.datum, Code.datum, hy.2.value, hx'.type]

/-- An aggregate itself, or the address of a new copy of it. -/
theorem simulates_placeAggregate (h : g.At s n p) {aggregate : Operand} {v : Datum V}
    (hv : g.Denotes s p aggregate v) {size : Emit Nat} {bytes : Nat}
    (hsize : ∀ r t, size s = .ok r t → r = bytes ∧ t = s) (heap : Bool) [Emit.Extending size] :
    g.Simulates s p (Emit.placeAggregate aggregate size heap) (g.x.placeAggregate v bytes heap)
      (g.Value n) := by
  unfold Emit.placeAggregate Activation.placeAggregate
  cases heap with
  | true =>
    refine .around h.isOpen fun r t hr => ?_
    obtain ⟨rfl, rfl⟩ := hsize r t hr
    exact simulates_heapCopy h hv r
  | false => exact .pure ⟨h, hv⟩

/-! ## Short-circuit evaluation -/

theorem At.currentLabel (h : g.At s n p) : s.builder.currentLabel = s.fn.block := by
  rw [Ir.Builder.currentLabel, h.function]

/-- The value of a `phi` is the one that belongs to the block that control came from. -/
theorem simulates_phi (h : g.At s n p) {type : Ir.Ty} {incoming : List (Ref × Label)} {ref : Ref}
    {v : Datum V} (hv : g.Denotes s p ⟨type, ref⟩ v)
    (hfrom : incoming.find? (·.2 = p.previous) = some (ref, p.previous)) :
    g.Simulates s p (Emit.build (Ir.Build.result type (.phi type incoming))) (Pure.pure v)
      (g.Value n) := by
  have hinstr : g.code.instruction p (.phi type incoming) = some (v.value, p.effects) := by
    show (g.code.merge p.temps p.previous incoming).map _ = _
    rw [Code.merge, hfrom, ← hv.value]
    rfl
  have htype : type = v.type := hv.type
  refine simulates_result h hinstr ?_
  rw [Action.pure_apply, htype]

/-- `&&` and `||` behind the jump that the left operand decides on: control is at `done` already, or
the right operand is evaluated. -/
theorem simulates_decided {right : Emit Operand} {b : Action V (Datum V)} {k m other done : Nat}
    [hright : Emit.Growing (fun _ => False) k right] {decided holds : Bool} {origin : Label}
    (h : g.Jumps s m (.numbered (if holds = decided then done else other)) p)
    (hblock : p.block = origin) (hfrom : ∀ j, origin = .numbered j → j < other) (hother : other < done)
    (hdone : done ≤ s.builder.labels)
    (hr : ∀ t q, g.At t m q → g.Simulates t q right b (g.Value (m + k))) :
    g.Simulates s p (do
        Emit.build (Ir.Build.placeLabel (.numbered other))
        let y ← right
        let behind := (← get).builder.currentLabel
        Emit.build (Ir.Build.placeLabel (.numbered done))
        Emit.build (Ir.Build.result (.int 1)
          (.phi (.int 1) [(.bool decided, origin), (y.ref, behind)])))
      (if holds = decided then Pure.pure ⟨.int 1, g.x.machine.bool decided⟩
        else do return ⟨.int 1, (← b).value⟩)
      (g.Value (m + k)) := by
  by_cases hholds : holds = decided
  · rw [if_pos hholds] at h ⊢
    refine .overLabel h fun t hst ht => .around ht.1.isOpen fun y u hu => .skip rfl ?_
    have htu : t.builder.labels ≤ u.builder.labels := (hright.grows hu).builder.labels
    refine .seq (ht.grow (hright.grows hu)).1.isOpen (simulates_placeLabel
      (.inr (ht.grow (hright.grows hu))) (by omega)) fun _ w q _ _ hq => ?_
    have hbool : g.Denotes w q ⟨.int 1, .bool decided⟩ ⟨.int 1, g.x.machine.bool decided⟩ :=
      denotes_fixed fun _ hk => by cases hk
    refine simulates_phi hq.1 hbool ?_
    rw [hq.2.2, hblock]
    simp
  · rw [if_neg hholds] at h ⊢
    refine .seq h.1.isOpen (simulates_placeLabel (.inr h) (by omega)) fun _ t q ht _ hq => ?_
    refine .bind hq.1.isOpen (hr t q hq.1) fun y u q' w hu _ hy => ?_
    have hst : s.builder.labels ≤ t.builder.labels := (Emit.Extending.kept ht).builder.labels
    have hgrows := hright.grows hu
    have htu : t.builder.labels ≤ u.builder.labels := hgrows.builder.labels
    have hother' : u.fn.block ≠ origin := by
      obtain ⟨f, hf, hadds⟩ := hgrows.builder.function _ hq.1.function
      intro heq
      rw [Emitter.fn_eq hf] at heq
      rcases hadds.block with hb | ⟨j, hb, hlo, -⟩
      · have := hfrom other (by rw [← heq, hb, hq.2.1])
        omega
      · have := hfrom j (by rw [← heq, hb])
        omega
    refine .skip rfl (.seq hy.1.isOpen (simulates_placeLabel (.inl hy.1) (by omega))
      fun _ r q'' _ hlater hq' => ?_)
    have hy' := hy.2.after hy.1 hlater hq'.1
    refine simulates_phi hq'.1 (v := ⟨.int 1, w.value⟩) ⟨rfl, hy'.value, hy'.known⟩ ?_
    rw [hq'.2.2, hy.1.block, hy.1.currentLabel]
    simp [Ne.symm hother']

/-- `&&` and `||`: the right operand is evaluated in a block of its own. -/
theorem simulates_shortCircuit {left right : Emit Operand} {a b : Action V (Datum V)} {m k : Nat}
    [hleft : Emit.Extending left] [hright : Emit.Growing (fun _ => False) k right] (decided : Bool)
    (h : g.At s n p) (hl : g.Simulates s p left a (g.Value m))
    (hr : ∀ t q, g.At t m q → g.Simulates t q right b (g.Value (m + k))) :
    g.Simulates s p (Emit.shortCircuit decided left right) (g.x.shortCircuit decided a b)
      (g.Value (m + k)) := by
  unfold Emit.shortCircuit Activation.shortCircuit
  refine .bind h.isOpen hl fun x t q v _ _ hx => ?_
  refine .skip rfl (.newLabel (.newLabel ?_))
  have hat : g.At t.relabeled.relabeled m q := hx.1.relabeled.relabeled
  have hx' : g.Denotes t.relabeled.relabeled q x v := hx.2.relabeled.relabeled
  have hbounded (j : Nat) (hj : t.relabeled.relabeled.fn.block = .numbered j) :
      j < t.builder.labels + 1 := Nat.lt_succ_of_le (hx.1.bounded j hj)
  have hlabels {u : Emitter} {test : Operand} {yes no : Label} {r : Unit}
      (hu : Emit.build (Ir.Build.condBr test yes no) t.relabeled.relabeled = .ok r u) :
      t.builder.labels + 2 ≤ u.builder.labels := (Emit.Extending.kept hu).builder.labels
  rw [hx.1.currentLabel]
  cases decided with
  | true =>
    refine .seq hat.isOpen (simulates_condBr hat hx' _ _) fun _ u q' hu _ hq =>
      simulates_decided ?_ hq.2 hbounded (Nat.lt_succ_self _) (hlabels hu) hr
    exact ⟨hq.1.1, by rw [hq.1.2]; cases g.x.machine.truth v.value <;> rfl⟩
  | false =>
    refine .seq hat.isOpen (simulates_condBr hat hx' _ _) fun _ u q' hu _ hq =>
      simulates_decided ?_ hq.2 hbounded (Nat.lt_succ_self _) (hlabels hu) hr
    exact ⟨hq.1.1, by rw [hq.1.2]; cases g.x.machine.truth v.value <;> rfl⟩

/-! ## Filling arrays -/

set_option synthInstance.maxSize 512 in
/-- A round of filling an array: control comes back to the test, or goes on behind the loop. -/
theorem simulates_fillRound {counter data count value : Operand} {cell d c v : Datum V}
    {element : Ir.Ty} {test body done : Nat} (h : g.At s n p) (hcounter : g.Denotes s p counter cell)
    (hdata : g.Denotes s p data d) (hcount : g.Denotes s p count c) (hvalue : g.Denotes s p value v)
    (hbody : body ≤ s.builder.labels) (hdone : done ≤ s.builder.labels) :
    g.Simulates s p (do
        let index ← Emit.build (Ir.Build.load (.int 64) counter)
        let more ← Emit.build (Ir.Build.result (.int 1) (.compare .slt index count.ref))
        Emit.build (Ir.Build.condBr more (.numbered body) (.numbered done))
        Emit.build (Ir.Build.placeLabel (.numbered body))
        let address ← Emit.build (Ir.Build.result .ptr (.addressOf element data [index]))
        Emit.build (Ir.Build.store value address)
        let next ← Emit.build (Ir.Build.result (.int 64) (.binary .add index (.int 1)))
        Emit.build (Ir.Build.store next counter)
        Emit.build (Ir.Build.br (.numbered test))
        Emit.build (Ir.Build.placeLabel (.numbered done)))
      (g.x.fillElement cell d c v element) fun t q _ r => match r with
        | .inl _ => g.Cells q ∧ q.control = .enter (.numbered test)
        | .inr _ => g.At t n q := by
  unfold Activation.fillElement
  refine .bind h.isOpen (simulates_load h hcounter (.int 64)) fun index t₁ q₁ i _ hl₁ hindex => ?_
  have hcount₁ := hcount.after h hl₁ hindex.1
  have hcompare : g.code.operation q₁.temps (.compare .slt index count.ref) =
      some (.compare .slt, [i, ⟨i.type, c.value⟩]) := by
    rw [← hindex.2.datum, ← hcount₁.value]
    rfl
  refine .seq hindex.1.isOpen (simulates_compute hindex.1 hcompare (.int 1))
    fun more t₂ q₂ _ hl₂ hmore => ?_
  refine .seq hmore.1.isOpen (simulates_condBr hmore.1 hmore.2 _ _) fun _ t₃ q₃ _ hl₃ hjump => ?_
  have hl := hl₁.trans (hl₂.trans hl₃)
  dsimp only
  by_cases htruth : g.x.machine.truth
      (g.x.compute (.int 1) (.compare .slt) [i, ⟨i.type, c.value⟩]).value = true
  · rw [if_pos htruth] at hjump ⊢
    refine .seq hjump.1.1.isOpen (simulates_placeLabel (.inr hjump.1) (hbody.trans hl.labels))
      fun _ t₄ q₄ _ hl₄ hat => ?_
    have hindex₄ := hindex.2.after hindex.1 (hl₂.trans (hl₃.trans hl₄)) hat.1
    have hdata₄ := hdata.after h (hl.trans hl₄) hat.1
    have haddress : g.code.operation q₄.temps (.addressOf element data [index]) =
        some (.addressOf element, [d, i]) := by
      rw [← hdata₄.datum, ← hindex₄.datum]
      rfl
    refine .seq hat.1.isOpen (simulates_compute hat.1 haddress .ptr) fun address t₅ q₅ _ hl₅ ha => ?_
    have hvalue₅ := hvalue.after h (hl.trans (hl₄.trans hl₅)) ha.1
    refine .bind ha.1.isOpen (simulates_store ha.1 hvalue₅ ha.2) fun _ t₆ q₆ _ _ hl₆ hat₆ => ?_
    have hindex₆ := hindex₄.after hat.1 (hl₅.trans hl₆) hat₆
    have hnext : g.code.operation q₆.temps (.binary .add index (.int 1)) =
        some (.binary .add, [i, ⟨i.type, g.x.machine.int 1⟩]) := by
      rw [← hindex₆.datum]
      rfl
    refine .seq hat₆.isOpen (simulates_compute hat₆ hnext (.int 64)) fun next t₇ q₇ _ hl₇ hn => ?_
    have hcounter₇ := hcounter.after h (hl.trans (hl₄.trans (hl₅.trans (hl₆.trans hl₇)))) hn.1
    refine .bind hn.1.isOpen (simulates_store hn.1 hn.2 hcounter₇) fun _ t₈ q₈ _ _ _ hat₈ => ?_
    refine .seq hat₈.isOpen (simulates_br hat₈ _) fun _ t₉ q₉ _ _ hj => ?_
    exact .stay fun _ _ _ _ => ⟨hj.1.cells, hj.2⟩
  · rw [if_neg htruth] at hjump ⊢
    refine .overLabel hjump.1 fun t₄ h₄ hj => .over hj fun _ t₅ h₅ hj => .over hj fun _ t₆ h₆ hj =>
      .over hj fun _ t₇ h₇ hj => .over hj fun _ t₈ h₈ hj => .over hj fun _ t₉ h₉ hj => ?_
    have hdone' : done ≤ t₉.builder.labels := by
      have := hl.labels
      omega
    exact (simulates_placeLabel (.inr hj) hdone').returning.mono fun _ _ _ _ _ hq => by
      obtain ⟨hat, rfl⟩ := hq
      exact hat.1

set_option synthInstance.maxSize 100000 in
theorem simulates_fillElements (h : g.At s n p) {data count value : Operand} {d c v : Datum V}
    (hdata : g.Denotes s p data d) (hcount : g.Denotes s p count c) (hvalue : g.Denotes s p value v)
    (element : Ir.Ty) :
    g.Simulates s p (Emit.fillElements data count value element)
      (g.x.fillElements n d c v element) fun t q _ _ => g.At t (n + 1) q := by
  unfold Emit.fillElements Activation.fillElements
  refine .seq h.isOpen (simulates_reserve h (.int 64)) fun counter t₁ q₁ _ hl₁ hcounter => ?_
  refine .bind hcounter.1.isOpen (simulates_store hcounter.1 (denotes_word 64 0) hcounter.2)
    fun _ t₂ q₂ _ _ hl₂ hat₂ => ?_
  refine .newLabel (.newLabel (.newLabel ?_))
  have hat := hat₂.relabeled.relabeled.relabeled
  intro r t he ht
  obtain ⟨_, u, hplace, hrest⟩ := Run.bind_eq_ok.mp he
  have hextends : Emitter.Extends t₂.relabeled.relabeled.relabeled u := Emit.Extending.kept hplace
  have hu := ht.back (Emit.Extending.kept hrest) (extends_fn hextends hat.isOpen).1
  -- A round starts where control comes to the test.
  refine outcome_rounds (fun _ q => g.Arrives t₂.relabeled.relabeled.relabeled (n + 1)
    (.numbered (t₂.builder.labels + 1)) q) (fun _ q hkept hinv => ?_) (.inl hat) (Nat.le_refl _)
  obtain ⟨k, q', hreach, heffects, htemps, -, -, hat'⟩ := hinv.lands hplace hu (by
    show t₂.builder.labels + 1 ≤ t₂.builder.labels + 1 + 1 + 1
    omega)
  have hkept' : Kept t₂.relabeled.relabeled.relabeled q q' := fun j _ => congrFun htemps j
  refine ⟨k, q', hreach, heffects, hkept', ?_⟩
  have hl₃ : Later t₂ q₂ u q' := (later_relabeled _ _).trans <| (later_relabeled _ _).trans <|
    (later_relabeled _ _).trans <| later_of_extends hextends hat.isOpen (hkept.trans hkept')
  have hlabels := hextends.builder.labels
  have hl := hl₁.trans (hl₂.trans hl₃)
  have hout := simulates_fillRound hat' (hcounter.2.after hcounter.1 (hl₂.trans hl₃) hat')
    (hdata.after h hl hat') (hcount.after h hl hat') (hvalue.after h hl hat')
    ((Nat.le_succ _).trans hlabels) hlabels hrest ht
  rw [heffects] at hout
  refine (hout.earlier hl₃.temps).mono fun q'' r _ hq => ?_
  cases r with
  | inl _ => exact .inr ⟨hat.toBefore.elsewhere hq.1, hq.2⟩
  | inr _ => exact hq

/-- An array is filled where it is, or behind a new address. -/
theorem simulates_fillArray (h : g.At s n p) {count value : Operand} {c v : Datum V}
    (hcount : g.Denotes s p count c) (hvalue : g.Denotes s p value v) (element type : Ty)
    (heap : Bool) :
    g.Simulates s p (Emit.fillArray count value element type heap)
      (g.x.fillArray n c v element type heap) (g.Value (n + if heap then 1 else 2)) := by
  unfold Emit.fillArray Activation.fillArray
  refine .skip (h.irType element) ?_
  cases heap with
  | true =>
    refine .around h.isOpen fun size t hsize => ?_
    obtain ⟨rfl, rfl⟩ := h.byteSize hsize
    have hbytes : g.code.operation p.temps (.binary .mul count (.int (g.x.sizeOf element))) =
        some (.binary .mul, [c, ⟨c.type, g.x.machine.int (g.x.sizeOf element)⟩]) := by
      rw [← hcount.datum]
      rfl
    refine .seq h.isOpen (simulates_compute h hbytes (.int 64)) fun bytes t q _ hl hb => ?_
    refine .bind hb.1.isOpen (simulates_allocate hb.1 hb.2) fun data u q' d _ hl' hd => ?_
    have hl'' := hl.trans hl'
    refine .bind hd.1.isOpen (simulates_fillElements hd.1 hd.2 (hcount.after h hl'' hd.1)
      (hvalue.after h hl'' hd.1) _) fun _ w q'' _ _ hl₃ hat => ?_
    exact .pure ⟨hat, hd.2.after hd.1 hl₃ hat⟩
  | false =>
    refine .skip (h.irType type) ?_
    refine .seq h.isOpen (simulates_reserve h _) fun data t q _ hl hd => ?_
    refine .bind hd.1.isOpen (simulates_fillElements hd.1 hd.2 (hcount.after h hl hd.1)
      (hvalue.after h hl hd.1) _) fun _ w q'' _ _ hl' hat => ?_
    exact simulates_load hat (hd.2.after hd.1 hl' hat) _

/-! ## Expressions -/

mutual

/-- The code of an expression has the effects of its evaluation, and results in its value. -/
theorem simulates_emitExpr : ∀ (e : Core.Expr) {s : Emitter} {p : Point V} {n : Nat}, g.At s n p →
    g.Simulates s p (Emit.emitExpr e) (g.x.eval n e) (g.Value (n + e.cells))
  | .mk kind type constant span, s, p, n, h => by
    unfold Emit.emitExpr Activation.eval Core.Expr.cells
    cases Emit.literal? type constant with
    | some known => exact simulates_constant h known type
    | none => exact simulates_emitKind type span kind h

theorem simulates_emitKind (type : Ty) (span : Span) :
    ∀ (kind : Core.ExprKind) {s : Emitter} {p : Point V} {n : Nat}, g.At s n p →
      g.Simulates s p (Emit.emitKind type span kind) (g.x.evalKind n type kind)
        (g.Value (n + kind.cells))
  | .int k, s, p, n, h => by
    unfold Emit.emitKind Activation.evalKind Core.ExprKind.cells
    refine .skip (h.irType type) ?_
    exact .pure ⟨h, denotes_fixed fun _ hk => by cases hk⟩
  | .bool b, s, p, n, h => by
    unfold Emit.emitKind Activation.evalKind Core.ExprKind.cells
    exact .pure ⟨h, denotes_fixed fun _ hk => by cases hk⟩
  | .str text, s, p, n, h => by
    unfold Emit.emitKind Activation.evalKind Core.ExprKind.cells
    exact simulates_string h text
  | .load place, s, p, n, h => by
    unfold Emit.emitKind Activation.evalKind Core.ExprKind.cells
    refine .bind h.isOpen (simulates_emitPlace place h) fun address t q v _ _ ha => ?_
    refine .skip (ha.1.irType _) ?_
    exact simulates_load ha.1 ha.2 _
  | .function id, s, p, n, h => by
    unfold Emit.emitKind Activation.evalKind Core.ExprKind.cells
    refine .skip (h.symbolOf id) ?_
    exact .pure ⟨h, denotes_fixed fun _ hk => by cases hk⟩
  | .call callee args, s, p, n, h => by
    unfold Emit.emitKind Activation.evalKind Core.ExprKind.cells
    rw [← Nat.add_assoc]
    cases callee.type.shape with
    | func params variadic returns =>
      refine .bind h.isOpen (simulates_emitExpr callee h) fun target t q v _ _ ht => ?_
      refine .bind ht.1.isOpen (simulates_emitArguments params.length args ht.1)
        fun values u q' vs _ hl hvalues => ?_
      refine .skip hvalues.1.program ?_
      exact simulates_call hvalues.1 (ht.2.after ht.1 hl hvalues.1).value hvalues.2 _ _
    | _ => exact .reject
  | .macroCall id args, s, p, n, h => by
    unfold Emit.emitKind Activation.evalKind Core.ExprKind.cells
    refine .skip h.program ?_
    dsimp only
    cases Intrinsic.ofPath? (g.x.program.macroDef id).fullName with
    | none => exact .reject
    | some intrinsic => exact simulates_emitMacro intrinsic span args h
  | .binary op left right, s, p, n, h => by
    unfold Emit.emitKind Activation.evalKind Core.ExprKind.cells
    rw [← Nat.add_assoc]
    cases Emit.evaluation op with
    | arithmetic code =>
      exact simulates_both h (simulates_emitExpr left h) (fun t q hat => simulates_emitExpr right hat)
        type fun _ _ _ => rfl
    | comparison how =>
      exact simulates_both h (simulates_emitExpr left h) (fun t q hat => simulates_emitExpr right hat)
        type fun _ _ _ => rfl
    | shortCircuit decided =>
      exact simulates_shortCircuit decided h (simulates_emitExpr left h) fun t q hat =>
        simulates_emitExpr right hat
  | .unary op operand, s, p, n, h => by
    unfold Emit.emitKind Activation.evalKind Core.ExprKind.cells
    exact .bind h.isOpen (simulates_emitExpr operand h) fun value t q v _ _ hv =>
      simulates_unary hv.1 hv.2 op
  | .address place, s, p, n, h => by
    unfold Emit.emitKind Activation.evalKind Core.ExprKind.cells
    exact simulates_emitPlace place h
  | .cast value how, s, p, n, h => by
    unfold Emit.emitKind Activation.evalKind Core.ExprKind.cells
    exact .bind h.isOpen (simulates_emitExpr value h) fun value t q v _ _ hv =>
      simulates_cast hv.1 hv.2 how
  | .extract base index, s, p, n, h => by
    unfold Emit.emitKind Activation.evalKind Core.ExprKind.cells
    refine .bind h.isOpen (simulates_emitExpr base h) fun aggregate t q v _ _ hv => ?_
    refine .skip (hv.1.irType type) ?_
    exact simulates_extract hv.1 hv.2 _ index
  | .structInit id values heap, s, p, n, h => by
    unfold Emit.emitKind Activation.evalKind Core.ExprKind.cells
    refine .skip h.program ?_
    have : Emit.Growing (fun _ => False) 0
        (do Emit.byteSize ((← Emit.context).structType id)) := .cast inferInstance rfl
    refine .bind h.isOpen (simulates_emitAggregate 0 values h (denotes_fixed fun _ hk => by cases hk))
      fun aggregate t q v _ _ hv => ?_
    refine simulates_placeAggregate hv.1 hv.2 (fun r u hsize => ?_) heap
    obtain ⟨c, t', hc, hbytes⟩ := Run.bind_eq_ok.mp hsize
    rw [hv.1.program] at hc
    cases hc
    exact hv.1.byteSize hbytes
  | .arrayInit element values heap, s, p, n, h => by
    unfold Emit.emitKind Activation.evalKind Core.ExprKind.cells
    refine .skip (h.irType element) ?_
    refine .bind h.isOpen (simulates_emitAggregate 0 values h (denotes_fixed fun _ hk => by cases hk))
      fun aggregate t q v _ _ hv => ?_
    exact simulates_placeAggregate hv.1 hv.2 (fun r u hsize => hv.1.elementsSize hsize) heap
  | .arrayFill element size value heap, s, p, n, h => by
    unfold Emit.emitKind Activation.evalKind Core.ExprKind.cells
    rw [← Nat.add_assoc, ← Nat.add_assoc]
    refine .bind h.isOpen (simulates_emitExpr size h) fun count t q c _ hl hc => ?_
    refine .bind hc.1.isOpen (simulates_emitExpr value hc.1) fun content u q' v _ hl' hv => ?_
    exact simulates_fillArray hv.1 (hc.2.after hc.1 hl' hv.1) hv.2 element type heap
  | .new value, s, p, n, h => by
    unfold Emit.emitKind Activation.evalKind Core.ExprKind.cells
    refine .around h.isOpen fun size t hsize => ?_
    obtain ⟨rfl, rfl⟩ := h.byteSize hsize
    exact .bind h.isOpen (simulates_emitExpr value h) fun value t q v _ _ hv =>
      simulates_heapCopy hv.1 hv.2 _

theorem simulates_emitMacro (intrinsic : Intrinsic) (span : Span) :
    ∀ (args : List Core.Expr) {s : Emitter} {p : Point V} {n : Nat}, g.At s n p →
      g.Simulates s p (Emit.emitMacro intrinsic span args) (g.x.evalMacro n intrinsic args)
        (g.Value (n + Core.macroCells args))
  | [], s, p, n, h => .reject
  | format :: values, s, p, n, h => by
    unfold Emit.emitMacro Activation.evalMacro Core.macroCells
    refine .around h.isOpen fun pieces t hpieces => ?_
    obtain ⟨-, rfl, -, rfl⟩ := requireFormat_eq_ok hpieces
    refine .bind h.isOpen (simulates_emitPieces _ values h) fun rendered t q shown _ _ hq => ?_
    exact .bind hq.1.isOpen (simulates_print hq.1 hq.2.1 _ hq.2.2) fun _ u q' _ _ _ hat =>
      .pure ⟨hat, denotes_fixed fun _ hk => by cases hk⟩

theorem simulates_emitArguments (fixed : Nat) :
    ∀ (args : List Core.Expr) {s : Emitter} {p : Point V} {n : Nat}, g.At s n p →
      g.Simulates s p (Emit.emitArguments fixed args) (g.x.evalArguments n fixed args)
        fun t q r r' => g.At t (n + Core.cellsOf args) q ∧ List.Forall₂ (g.Denotes t q) r r'
  | [], s, p, n, h => by
    unfold Emit.emitArguments Activation.evalArguments Core.cellsOf
    exact .pure ⟨h, .nil⟩
  | arg :: rest, s, p, n, h => by
    unfold Emit.emitArguments Activation.evalArguments Core.cellsOf
    rw [← Nat.add_assoc]
    refine .bind h.isOpen (simulates_emitExpr arg h) fun value t q v _ _ hv => ?_
    have hrest {t : Emitter} {q : Point V} {passed : Operand} {w : Datum V}
        (hp : g.Value (n + arg.cells) t q passed w) :
        g.Simulates t q (do return passed :: (← Emit.emitArguments (fixed - 1) rest))
          (do return w :: (← g.x.evalArguments (n + arg.cells) (fixed - 1) rest))
          fun t q r r' => g.At t (n + arg.cells + Core.cellsOf rest) q ∧
            List.Forall₂ (g.Denotes t q) r r' :=
      .bind hp.1.isOpen (simulates_emitArguments (fixed - 1) rest hp.1) fun _ _ _ _ _ hl hq =>
        .pure ⟨hq.1, .cons (hp.2.after hp.1 hl hq.1) hq.2⟩
    dsimp only
    by_cases hfixed : fixed = 0
    · rw [if_pos hfixed, if_pos hfixed]
      exact .seq hv.1.isOpen (simulates_promote hv.1 hv.2 arg.type) fun _ _ _ _ _ hp => hrest hp
    · rw [if_neg hfixed, if_neg hfixed]
      exact .skip rfl (hrest hv)

theorem simulates_emitAggregate (index : Nat) :
    ∀ (values : List Core.Expr) {s : Emitter} {p : Point V} {n : Nat} {aggregate : Operand}
      {v : Datum V}, g.At s n p → g.Denotes s p aggregate v →
      g.Simulates s p (Emit.emitAggregate aggregate index values)
        (g.x.evalAggregate n v index values) (g.Value (n + Core.cellsOf values))
  | [], s, p, n, aggregate, v, h, hv => by
    unfold Emit.emitAggregate Activation.evalAggregate Core.cellsOf
    exact .pure ⟨h, hv⟩
  | part :: rest, s, p, n, aggregate, v, h, hv => by
    unfold Emit.emitAggregate Activation.evalAggregate Core.cellsOf
    rw [← Nat.add_assoc]
    refine .bind h.isOpen (simulates_emitExpr part h) fun value t q w _ hl hw => ?_
    obtain rfl := (hv.after h hl hw.1).datum
    obtain rfl := hw.2.datum
    exact .seq hw.1.isOpen (simulates_compute hw.1 rfl aggregate.type) fun next u q' _ _ hnext =>
      simulates_emitAggregate (index + 1) rest hnext.1 hnext.2

theorem simulates_emitPieces (pieces : List String) :
    ∀ (values : List Core.Expr) {s : Emitter} {p : Point V} {n : Nat}, g.At s n p →
      g.Simulates s p (Emit.emitPieces pieces values) (g.x.evalPieces n pieces values)
        fun t q r r' => g.At t (n + Core.cellsOf values) q ∧ g.Shows t q r.1 r'.1 ∧
          List.Forall₂ (g.Owns t q) r.2 r'.2
  | [], s, p, n, h => by
    unfold Emit.emitPieces Activation.evalPieces Core.cellsOf
    exact .pure ⟨h, .plain _, .nil⟩
  | value :: rest, s, p, n, h => by
    unfold Emit.emitPieces Activation.evalPieces Core.cellsOf
    rw [← Nat.add_assoc]
    refine .bind h.isOpen (simulates_emitExpr value h) fun operand t q v _ _ hv => ?_
    refine .bind hv.1.isOpen (simulates_render hv.1 hv.2 value.type value.span)
      fun shown u q' shown' _ hl hshown => ?_
    refine .bind hshown.1.isOpen (simulates_emitPieces pieces.tail rest hshown.1)
      fun after w q'' after' _ hl' hafter => .pure ⟨hafter.1, ?_, ?_⟩
    · exact ((Shows.plain _).append (hshown.2.after hshown.1 hl' hafter.1)).append hafter.2.1
    · refine List.rel_append ?_ hafter.2.2
      split
      · exact .nil
      · exact .cons ⟨hv.2.after hv.1 (hl.trans hl') hafter.1, rfl⟩ .nil

theorem simulates_emitPlace : ∀ (place : Core.Place) {s : Emitter} {p : Point V} {n : Nat},
    g.At s n p → g.Simulates s p (Emit.emitPlace place) (g.x.evalPlace n place)
      (g.Value (n + place.cells))
  | .mk kind type _ _, s, p, n, h => by
    unfold Emit.emitPlace Activation.evalPlace Core.Place.cells
    exact simulates_emitPlaceKind type kind h

theorem simulates_emitPlaceKind (type : Ty) :
    ∀ (kind : Core.PlaceKind) {s : Emitter} {p : Point V} {n : Nat}, g.At s n p →
      g.Simulates s p (Emit.emitPlaceKind type kind) (g.x.evalPlaceKind n type kind)
        (g.Value (n + kind.cells))
  | .slot id, s, p, n, h => by
    unfold Emit.emitPlaceKind Activation.evalPlaceKind Core.PlaceKind.cells
    exact .seq h.isOpen (simulates_slot h id) fun address t q _ _ ha => .pure ha.1
  | .global id, s, p, n, h => by
    unfold Emit.emitPlaceKind Activation.evalPlaceKind Core.PlaceKind.cells
    refine .skip (h.symbolOf id) ?_
    exact .pure ⟨h, denotes_fixed fun _ hk => by cases hk⟩
  | .deref pointer, s, p, n, h => by
    unfold Emit.emitPlaceKind Activation.evalPlaceKind Core.PlaceKind.cells
    exact simulates_emitExpr pointer h
  | .field base id index, s, p, n, h => by
    unfold Emit.emitPlaceKind Activation.evalPlaceKind Core.PlaceKind.cells
    refine .bind h.isOpen (simulates_emitExpr base h) fun pointer t q v _ _ hv => ?_
    refine .skip hv.1.program ?_
    refine simulates_compute hv.1 ?_ _
    rw [← hv.2.datum]
    rfl
  | .element data index, s, p, n, h => by
    unfold Emit.emitPlaceKind Activation.evalPlaceKind Core.PlaceKind.cells
    rw [← Nat.add_assoc]
    refine .bind h.isOpen (simulates_emitExpr data h) fun pointer t q v _ _ hv => ?_
    refine .bind hv.1.isOpen (simulates_emitExpr index hv.1) fun position u q' w _ hl hw => ?_
    refine .skip (hw.1.irType type) ?_
    have hv' := hv.2.after hv.1 hl hw.1
    refine simulates_compute hw.1 ?_ _
    rw [← hv'.datum, ← hw.2.datum]
    rfl

end

end Stage

end OwnLang
