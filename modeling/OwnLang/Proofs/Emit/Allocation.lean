import OwnLang.Proofs.Check.Sizes
import OwnLang.Proofs.Emit.Evaluated

/-!
# Sizes of allocations

What an expression puts into a new cell is known by its type, but for arrays that are filled, whose length is a
value. The code of the expression asks for as many bytes as values of the type take: a size of 64 bits that is
exact (`Emit.writes_allocation`). Where the type, or that of a part of its values, needs more bytes than 64 bits
can count, there is no code, and so no module (`compile_allocates`). The elements of an array that is filled have
such a size, and the number of bytes is the product that the machine makes of it and of the length.
-/

namespace OwnLang

open Ir (Operand Build)

/-- The type of what a form puts into a new cell, if it does not depend on a value. -/
def Core.ExprKind.allocates? (c : Context) : Core.ExprKind → Option Ty
  | .structInit id _ true => some (c.structType id)
  | .arrayInit element values true => some (Shape.array element false (some values.length)).plain
  | .new value => some value.type
  | _ => none

/-- The type of the elements of an array that a form puts into a new cell, and the number of them as a value. -/
def Core.ExprKind.fills? : Core.ExprKind → Option (Ty × Core.Expr)
  | .arrayFill element count _ true => some (element, count)
  | _ => none

/-- A number of bytes is allocated at an address. -/
def Page.Allocates (page : Page) (bytes address : Operand) : Prop :=
  ∃ k, address = ⟨.ptr, .temp k⟩ ∧ .result k (.call .ptr (.symbol "malloc") [bytes]) ∈ page.lines

namespace Emit

variable {s : Emitter} {Γ : Core.TypeEnv}

theorem writes_byteSize (t : Ty) : Writes s (byteSize t) fun page n => page.context.Fits t n := by
  refine writes_context.bind fun c s₁ => ?_
  cases hsize : c.sizeOf? t with
  | none => exact writes_stop _
  | some n =>
    refine writes_pure fun page hc => ?_
    subst hc
    exact Context.fits_sizeOf? hsize

theorem writes_elementsSize (element : Ty) (count : Nat) : Writes s (elementsSize element count) fun page n =>
    page.context.Fits (Shape.array element false (some count)).plain n := by
  refine (writes_byteSize element).bind fun size s₁ => ?_
  cases hbytes : boundedSize (size * count) with
  | none => exact writes_stop _
  | some n =>
    obtain ⟨rfl, hlt⟩ := boundedSize_eq_some.mp hbytes
    refine writes_pure fun page hsize => ?_
    rw [Nat.mul_comm] at hlt ⊢
    exact hsize.array false count none hlt

theorem writes_allocate (bytes : Operand) : Writes s (allocate bytes) fun page o => page.Allocates bytes o :=
  (writes_call _ _ _ _).mono fun _ _ h => h.2 rfl

theorem writes_heapCopy (value : Operand) (size : Nat) :
    Writes s (heapCopy value size) fun page o => page.Allocates ⟨.int 64, .int size⟩ o :=
  (writes_allocate _).bind fun _ _ => .seq fun _ _ => writes_pure fun _ h => h

theorem literal?_madeType (t : Ty) (constant : Option Const) : literal? (Core.madeType true t) constant = none := by
  unfold literal?
  split
  all_goals first | rfl | (rename_i hshape; cases hshape)

/-- The address of what is allocated is never known ahead of that. -/
theorem emitExpr_made (kind : Core.ExprKind) (t : Ty) (constant : Option Const) (span : Span) :
    emitExpr (.mk kind (Core.madeType true t) constant span) = emitKind (Core.madeType true t) span kind := by
  unfold emitExpr
  rw [literal?_madeType]

theorem writes_placeAggregate {aggregate : Operand} {size : Emit Nat} {t : Context → Ty}
    (h : ∀ s, Writes s size fun page n => page.context.Fits (t page.context) n) :
    Writes s (placeAggregate aggregate size true) fun page o => ∃ n : Nat, page.context.Fits (t page.context) n ∧
      page.Allocates ⟨.int 64, .int n⟩ o :=
  (h s).bind fun n _ => (writes_heapCopy aggregate n).mono fun _ _ ho hn => ⟨n, hn, ho⟩

/-- The code of what is allocated asks for as many bytes as it takes. -/
theorem writes_allocation {e : Core.Expr} (h : e.Typed Γ) : Writes s (emitExpr e) fun page o =>
    ∀ t, e.kind.allocates? page.context = some t →
      ∃ n : Nat, page.context.Fits t n ∧ page.Allocates ⟨.int 64, .int n⟩ o := by
  obtain ⟨kind, type, constant, span⟩ := e
  cases h with
  | @structInit id values heap t =>
    cases heap with
    | false => exact writes_extending fun _ _ _ _ _ _ hnone => by cases hnone
    | true =>
      rw [emitExpr_made]
      unfold emitKind
      refine .seq fun c _ => .seq fun aggregate _ => (writes_placeAggregate (t := (·.structType id)) fun _ => ?_).mono
        fun page o ho t ht => ?_
      · refine writes_context.bind fun c _ => (writes_byteSize _).mono fun page n hn hc => ?_
        exact hc ▸ hn
      · cases ht
        exact ho
  | @arrayInit element values heap t =>
    cases heap with
    | false => exact writes_extending fun _ _ _ _ _ _ hnone => by cases hnone
    | true =>
      rw [emitExpr_made]
      unfold emitKind
      refine .seq fun type _ => .seq fun aggregate _ => (writes_placeAggregate (t := fun _ => _) fun _ =>
        writes_elementsSize element values.length).mono fun page o ho t ht => ?_
      cases ht
      exact ho
  | @new value t =>
    rw [emitExpr_made]
    unfold emitKind
    refine (writes_byteSize _).bind fun size _ => .seq fun o _ => (writes_heapCopy _ _).mono
      fun page o ho hsize t ht => ?_
    cases ht
    exact ⟨size, hsize, ho⟩
  | _ => exact writes_extending fun _ _ _ _ _ _ hnone => by cases hnone

/-- The code of an array that is allocated and filled asks for a product of its length and of as many bytes as an
element takes. -/
theorem writes_filled {e : Core.Expr} (h : e.Typed Γ) : Writes s (emitExpr e) fun page o =>
    ∀ t length, e.kind.fills? = some (t, length) → ∃ (n k : Nat) (count : Operand),
      (∃ s t : Emitter, s.On page ∧ t.On page ∧ emitExpr length s = .ok count t) ∧ page.context.Fits t n ∧
        .result k (.binary .mul count (.int n)) ∈ page.lines ∧ page.Allocates ⟨.int 64, .temp k⟩ o := by
  obtain ⟨kind, type, constant, span⟩ := e
  cases h with
  | @arrayFill element size value heap known t k span hsize =>
    cases heap with
    | false => exact writes_extending fun _ _ _ _ _ _ _ hnone => by cases hnone
    | true =>
      have hlength : Writes s (emitExpr size) fun _ _ => True := writes_extending fun _ _ _ _ _ => trivial
      rw [emitExpr_made]
      unfold emitKind fillArray
      refine hlength.evaluated.bind fun count _ => .seq fun content _ => .seq fun type _ =>
        (writes_byteSize element).bind fun n _ => (writes_result _ _).bind fun bytes _ =>
          (writes_allocate bytes).bind fun data _ => .seq fun _ _ => ?_
      refine writes_pure fun page ho hbytes hn hcount t length hfills => ?_
      cases hfills
      obtain ⟨k, rfl, hline⟩ := hbytes
      exact ⟨n, k, count, hcount.2, hn, hline, ho⟩
  | _ => exact writes_extending fun _ _ _ _ _ _ _ hnone => by cases hnone

end Emit

/-- Allocations have exact sizes. What a statement of a compiled program puts into a new cell has a type of which the
layout size, and that of every part, is a number of 64 bits, and the code asks for that number of bytes. For an array
that is filled it asks for the product of the size of an element, which is such a number, and of the length. -/
theorem compile_allocates {options : Options} {files : List SourceFile} {c : Context} {compiled : Compilation}
    (h : checkProgram options files = .ok c) (hcompiled : compile options files = .ok compiled) {i : Nat} {body : Body}
    (hbody : c.bodies[i]? = some body) {stmt : Core.Stmt} (hstmt : stmt ∈ body.block.emitted) {e : Core.Expr}
    (he : e ∈ stmt.evaluated) : ∃ f s o t, compiled.module.definitions[i]? = some f ∧
      f.name = (c.global body.function).symbol ∧ Emit.emitExpr e s = .ok o t ∧
      (∀ t, e.kind.allocates? c = some t → ∃ n : Nat, c.Fits t n ∧
        Page.Allocates ⟨c, f.body.toList, compiled.module.text?⟩ ⟨.int 64, .int n⟩ o) ∧
      ∀ t length, e.kind.fills? = some (t, length) → ∃ (n k : Nat) (count : Operand),
        (∃ s t, Emit.emitExpr length s = .ok count t) ∧ c.Fits t n ∧
          .result k (.binary .mul count (.int n)) ∈ f.body.toList ∧
          Page.Allocates ⟨c, f.body.toList, compiled.module.text?⟩ ⟨.int 64, .temp k⟩ o := by
  obtain ⟨f, hf, hname, s, o, t, hs, -, hpage, hrun, htyped⟩ := compile_evaluates h hcompiled hbody hstmt he
  refine ⟨f, s, o, t, hf, hname, hrun, (Emit.writes_allocation htyped hs hrun).2 _ hpage, fun t length hfills => ?_⟩
  obtain ⟨n, k, count, ⟨s', t', -, -, hcount⟩, hfits, hline, ho⟩ :=
    (Emit.writes_filled htyped hs hrun).2 _ hpage t length hfills
  exact ⟨n, k, count, ⟨s', t', hcount⟩, hfits, hline, ho⟩

end OwnLang
