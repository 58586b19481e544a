import OwnLang.Proofs.Check.ValuesBody
import OwnLang.Proofs.Emit.Printing
import OwnLang.Proofs.Emit.WellFormed

/-!
# Calls of `printf`

A macro that prints is emitted as one call of `printf`: its values are shown between the pieces of its
text, and those that are unique are freed behind the call. `Emit.Puts` says exactly which lines a part of
emission puts at the end of an open block, so `Releases` is all that stands behind the call.

Statements that are emitted for a body are emitted at some moment of its emission (`Emit.Emits`). A macro
that prints is called by a statement's outermost node, so the code of the call comes first in that of the
statement, and what is behind it is behind the code that frees.
-/

namespace OwnLang

open Ir (Operand Build)

/-! ## Code that frees -/

/-- The code that frees a unique value: an owner by one call, an array part by part. -/
def Releases (c : Context) (v : Operand) : Ty → List Ir.Line → Prop
  | .mk (.owner ..) _, lines => lines = [.effect (.call .void (.symbol "free") [v])]
  | .mk (.array element _ (some size)) _, lines => ∃ parts,
      List.Forall₂ (fun index part => ∃ k rest, part = .result k (.extract v index) :: rest ∧
        Releases c ⟨c.irType element, .temp k⟩ element rest) (List.range size) parts ∧ lines = parts.flatten
  | _, _ => False

/-- A value that is shown and unique is an owner, or an array of such values. -/
theorem Shows.unique {page : Page} {v : Operand} {t : Ty} {out : List Printed} (h : Shows page v t out)
    (ht : t.isCopyable = false) :
    (∃ target constant, t.shape = .owner target constant) ∨ ∃ element constant size,
      t.shape = .array element constant (some size) ∧ element.isCopyable = false ∧
        (0 < size → ∃ w out, Shows page w element out) := by
  obtain ⟨shape, writtenAs⟩ := t
  change shape.isCopyable = false at ht
  cases h with
  | int64 hshape | int32 hshape | small hshape | bool hshape =>
    obtain rfl := hshape
    cases ht
  | string hstring =>
    change shape.isString = true at hstring
    unfold Shape.isString at hstring
    split at hstring
    · cases ht
    · cases hstring
  | array hshape hparts =>
    obtain rfl := hshape
    refine .inr ⟨_, _, _, rfl, ht, fun hsize => ?_⟩
    obtain ⟨n, rfl⟩ := Nat.exists_eq_succ_of_ne_zero hsize.ne'
    cases hparts with
    | cons _ hpart _ => exact ⟨_, _, hpart⟩
  | struct hshape _ =>
    cases shape with
    | struct _ _ => cases ht
    | _ => cases hshape
  | pointer hmethod _ =>
    cases shape with
    | owner target constant => exact .inl ⟨target, constant, rfl⟩
    | array element constant size => cases hmethod
    | _ => cases ht

namespace Emit

/-- Where emission inside of a block leads. -/
def writing (c : Context) : Way Emitter where
  ready s := s.context = c ∧ s.builder.isTerminated = false
  along _ t := t.context = c ∧ t.builder.isTerminated = false
  refl h := h
  trans _ h := h
  arrives h := h

variable {α β : Type} {c : Context} {s t : Emitter} {e : Emit α} {f : α → Emit β} {Q : α → List Ir.Line → Prop}
  {R : β → List Ir.Line → Prop}

/-- A part of emission puts lines at the end of the current block. -/
def Puts (c : Context) (s : Emitter) (e : Emit α) (Q : α → List Ir.Line → Prop) : Prop :=
  Run.Yields (writing c) s e fun t a => ∃ lines, t.code = s.code ++ lines ∧ Q a lines

theorem puts_pure {a : α} (h : Q a []) : Puts c s (pure a) Q :=
  Run.yields_pure fun _ => ⟨[], (List.append_nil _).symm, h⟩

theorem Puts.bind (he : Puts c s e Q) (hf : ∀ a t first, Q a first → Puts c t (f a) fun b rest => R b (first ++ rest)) :
    Puts c s (e >>= f) R := by
  intro hs b u hrun
  obtain ⟨a, t, ha, hb⟩ := Run.bind_eq_ok.mp hrun
  obtain ⟨ht, first, hfirst, hQ⟩ := he hs ha
  obtain ⟨hu, rest, hrest, hR⟩ := hf a t first hQ ht hb
  exact ⟨hu, first ++ rest, by rw [hrest, hfirst, List.append_assoc], hR⟩

theorem Puts.mono {Q' : α → List Ir.Line → Prop} (he : Puts c s e Q) (h : ∀ a lines, Q a lines → Q' a lines) :
    Puts c s e Q' :=
  Run.Yields.mono he fun a _ _ ⟨lines, hlines, hQ⟩ => ⟨lines, hlines, h a lines hQ⟩

theorem isTerminated_eq_false {b : Ir.Builder} :
    b.isTerminated = false ↔ ∃ f, b.function = some f ∧ f.terminated = false := by
  unfold Ir.Builder.isTerminated
  cases b.function with
  | none => simp
  | some f => simp

theorem puts_irType (ty : Ty) : Puts c s (irType ty) fun a lines => a = c.irType ty ∧ lines = [] := by
  intro hs a t hrun
  obtain ⟨_, _, hcontext, hrun⟩ := Run.bind_eq_ok.mp hrun
  cases hcontext
  cases hrun
  exact ⟨hs, [], (List.append_nil _).symm, congrArg (Context.irType · ty) hs.1, rfl⟩

theorem puts_result (type : Ir.Ty) (instr : Ir.Instr) : Puts c s (build (Build.result type instr))
    fun a lines => ∃ k, a = ⟨type, .temp k⟩ ∧ lines = [.result k instr] := by
  intro hs a t hrun
  obtain ⟨f, hf, hopen⟩ := isTerminated_eq_false.mp hs.2
  rw [build_apply, Build.result_open hf hopen] at hrun
  cases hrun
  refine ⟨⟨hs.1, hopen⟩, [.result (f.temps + 1) instr], ?_, _, rfl, rfl⟩
  rw [Emitter.code_eq hf, Emitter.code_eq rfl, Array.toList_push]

theorem puts_free (v : Operand) : Puts c s (build (Build.call .void (.symbol "free") [v] none))
    fun _ lines => lines = [.effect (.call .void (.symbol "free") [v])] := by
  intro hs a t hrun
  obtain ⟨f, hf, hopen⟩ := isTerminated_eq_false.mp hs.2
  have hcall : Build.call .void (.symbol "free") [v] none s.builder = (.void,
      (Build.push (.effect (.call .void (.symbol "free") [v])) s.builder).2) := rfl
  rw [build_apply, hcall, Build.push_open hf hopen] at hrun
  cases hrun
  refine ⟨⟨hs.1, hopen⟩, _, ?_, rfl⟩
  rw [Emitter.code_eq hf, Emitter.code_eq rfl, Array.toList_push]

theorem puts_forIn {γ : Type} {P : γ → List Ir.Line → Prop} {xs : List γ} {f : γ → PUnit → Emit (ForInStep PUnit)}
    (h : ∀ x ∈ xs, ∀ s, Puts c s (f x ⟨⟩) fun step lines => step = .yield ⟨⟩ ∧ P x lines) :
    Puts c s (forIn xs PUnit.unit f) fun _ lines => ∃ parts, List.Forall₂ P xs parts ∧ lines = parts.flatten := by
  induction xs generalizing s with
  | nil => exact puts_pure ⟨[], .nil, rfl⟩
  | cons x rest ih =>
    rw [List.forIn_cons]
    refine (h x List.mem_cons_self s).bind ?_
    rintro _ t first ⟨rfl, hfirst⟩
    refine (ih fun y hy => h y (List.mem_cons_of_mem _ hy)).mono ?_
    rintro _ _ ⟨parts, hparts, rfl⟩
    exact ⟨first :: parts, .cons hfirst hparts, rfl⟩

/-- A unique value that is shown is freed, and nothing else is done. -/
theorem puts_release {page : Page} : (t : Ty) → t.isCopyable = false → ∀ v s,
    (∃ w out, Shows page w t out) → Puts c s (release v t) fun _ lines => Releases c v t lines
  | .mk (.owner target constant) writtenAs, _, v, s, _ => by
    unfold release Releases
    exact (puts_free v).bind fun _ _ _ h => puts_pure (by simpa using h)
  | .mk (.array element constant (some size)) writtenAs, ht, v, s, ⟨w, out, hshows⟩ => by
    have helement : element.isCopyable = false := ht
    have hshown : 0 < size → ∃ w out, Shows page w element out := by
      obtain ⟨target, constant, hshape⟩ | ⟨_, _, _, hshape, -, hshown⟩ := hshows.unique ht
      · cases hshape
      · cases hshape
        exact hshown
    unfold release Releases
    rw [helement]
    refine (puts_irType element).bind ?_
    rintro _ s₁ _ ⟨rfl, rfl⟩
    refine (puts_forIn fun index hindex s₂ => ?_).bind fun _ _ lines hlines => puts_pure (by simpa using hlines)
    refine (puts_result _ _).bind ?_
    rintro _ s₃ _ ⟨k, rfl, rfl⟩
    have hpart := puts_release element helement ⟨c.irType element, .temp k⟩ s₃
      (hshown (Nat.zero_lt_of_lt (List.mem_range.mp hindex)))
    exact hpart.bind fun _ _ rest hrest => puts_pure ⟨rfl, k, rest, by simp, hrest⟩
  | .mk (.array element constant none) writtenAs, ht, v, s, ⟨w, out, hshows⟩ => by
    obtain ⟨target, constant, hshape⟩ | ⟨_, _, _, hshape, -⟩ := hshows.unique ht <;> cases hshape
  | .mk (.int _) _, ht, _, _, _ | .mk .bool _, ht, _, _, _ | .mk .void _, ht, _, _, _
  | .mk (.func ..) _, ht, _, _, _ | .mk (.shared ..) _, ht, _, _, _ | .mk (.struct ..) _, ht, _, _, _ => by cases ht

end Emit

/-! ## Formats in pieces -/

section

variable {separator : Char} {chars piece : List Char} {pieces : List (List Char)}

theorem length_pieces (separator : Char) (chars : List Char) :
    (piecesOf.go separator chars).length = chars.count separator + 1 := by
  induction chars with
  | nil => rfl
  | cons c rest ih =>
    rw [piecesOf.go]
    split
    · rename_i hc
      rw [List.length_cons, ih, hc, List.count_cons_self]
    · rename_i hc
      rw [List.count_cons_of_ne (by simpa using hc), ← ih]
      cases hrest : piecesOf.go separator rest with
      | nil => simp [hrest] at ih
      | cons piece pieces => rfl

/-- A text is its first piece, or what is behind its first separator has the other pieces. -/
theorem pieces_eq_cons (h : piecesOf.go separator chars = piece :: pieces) : separator ∉ piece ∧
    (pieces = [] ∧ chars = piece ∨
      ∃ more, chars = piece ++ separator :: more ∧ piecesOf.go separator more = pieces) := by
  induction chars generalizing piece pieces with
  | nil =>
    cases h
    exact ⟨List.not_mem_nil, .inl ⟨rfl, rfl⟩⟩
  | cons c rest ih =>
    rw [piecesOf.go] at h
    split at h
    · rename_i hc
      cases h
      exact ⟨List.not_mem_nil, .inr ⟨rest, by rw [hc]; rfl, rfl⟩⟩
    · rename_i hc
      split at h
      · rename_i first more hrest
        cases h
        obtain ⟨hnone, hrest⟩ := ih hrest
        refine ⟨by simp [hnone, Ne.symm hc], ?_⟩
        rcases hrest with ⟨hlast, rfl⟩ | ⟨more, rfl, hmore⟩
        · exact .inl ⟨hlast, rfl⟩
        · exact .inr ⟨more, rfl, hmore⟩
      · rename_i hrest
        have := length_pieces separator rest
        simp [hrest] at this

end

namespace Printed

variable {chars piece rest : List Char} {out : List Printed} {outs : List (List Printed)}

theorem fill_nil (chars : List Char) : fill chars [] = chars.map .char := by
  induction chars with
  | nil => rfl
  | cons c rest ih =>
    rw [fill]
    · rw [ih, List.map_cons]
    · simp

theorem fill_piece (h : '%' ∉ piece) :
    fill (piece ++ '%' :: rest) (out :: outs) = piece.map .char ++ out ++ fill rest outs := by
  induction piece with
  | nil => rfl
  | cons c piece ih =>
    obtain ⟨hc, hpiece⟩ := not_or.mp (mt List.mem_cons.mpr h)
    rw [List.cons_append, fill_char (Ne.symm hc), ih hpiece]
    rfl

end Printed

/-! ## Arguments -/

/-- An argument of a macro that prints, and what it shows. -/
structure Passed where
  operand : Operand
  type : Ty
  shown : List Printed

/-- Whether an argument has one holder, which is the macro. -/
def Passed.unique (p : Passed) : Bool := !p.type.isCopyable

/-- An argument is evaluated by code of a page, and shows what its value does. -/
structure Page.Passes (page : Page) (value : Core.Expr) (p : Passed) : Prop where
  evaluated : ∃ s t : Emitter, s.On page ∧ t.On page ∧ Emit.emitExpr value s = .ok p.operand t
  type : p.type = value.type
  shown : Shows page p.operand p.type p.shown

theorem Page.shows_passed {page : Page} {values : List Core.Expr} {passed : List Passed}
    (h : List.Forall₂ page.Passes values passed) : ∀ p ∈ passed, Shows page p.operand p.type p.shown := by
  induction h with
  | nil => exact fun _ hp => absurd hp List.not_mem_nil
  | cons hfirst _ ih => exact List.forall_mem_cons.mpr ⟨hfirst.shown, ih⟩

namespace Emit

open Rendering (reads_plain)
open OwnLang.Core (TypeEnv Values)
open Printed (fill)

variable {s : Emitter} {Γ : TypeEnv}

theorem Writes.evaluated {value : Core.Expr} {Q : Page → Operand → Prop} (h : Writes s (emitExpr value) Q) :
    Writes s (emitExpr value) fun page o => Q page o ∧
      ∃ s t : Emitter, s.On page ∧ t.On page ∧ emitExpr value s = .ok o t := by
  intro hs o t hrun
  obtain ⟨hst, hQ⟩ := h hs hrun
  exact ⟨hst, fun page hpage => ⟨hQ page hpage, s, t, hpage.before hst.2, hpage, hrun⟩⟩

/-- The values are shown between the pieces of a format. -/
theorem writes_emitPieces {values : List Core.Expr} (ht : ∀ v ∈ values, v.Typed Γ)
    (hv : ∀ v ∈ values, Values v.parts) {chars : List Char} (hcount : chars.count '%' = values.length) :
    Writes s (emitPieces ((piecesOf.go '%' chars).map String.ofList) values) fun page r =>
      page.context.Legible → '\x00' ∉ chars → ∃ passed, List.Forall₂ page.Passes values passed ∧
        r.1.Reads (fill chars (passed.map (·.shown))) ∧
          r.2 = (passed.filter (·.unique)).map fun p => (p.operand, p.type) := by
  have hplain {piece : List Char} (hnul : '\x00' ∉ piece) :
      (Rendering.plain (String.ofList piece)).Reads (piece.map .char) := by
    have := reads_plain (s := String.ofList piece) (by rwa [String.toList_ofList])
    rwa [Printed.text, String.toList_ofList] at this
  induction values generalizing s chars with
  | nil =>
    have hlength := length_pieces '%' chars
    rw [hcount] at hlength
    obtain ⟨piece, hpiece⟩ := List.length_eq_one_iff.mp hlength
    obtain ⟨-, ⟨-, rfl⟩ | ⟨more, -, hmore⟩⟩ := pieces_eq_cons hpiece
    · rw [hpiece]
      unfold emitPieces
      refine writes_pure fun page _ hnul => ⟨[], .nil, ?_, rfl⟩
      rw [List.map_nil, Printed.fill_nil]
      exact hplain hnul
    · have := length_pieces '%' more
      simp [hmore] at this
  | cons value rest ih =>
    obtain ⟨htvalue, htrest⟩ := List.forall_mem_cons.mp ht
    obtain ⟨hvvalue, hvrest⟩ := List.forall_mem_cons.mp hv
    have hlength := length_pieces '%' chars
    obtain ⟨piece, pieces, hpieces⟩ := List.exists_cons_of_length_eq_add_one hlength
    obtain ⟨hpercent, ⟨rfl, -⟩ | ⟨more, rfl, rfl⟩⟩ := pieces_eq_cons hpieces
    · simp [hpieces, hcount] at hlength
    have hmore : more.count '%' = rest.length := by
      rw [List.count_append, List.count_eq_zero.mpr hpercent, List.count_cons_self, List.length_cons] at hcount
      omega
    rw [hpieces]
    unfold emitPieces
    refine (types_emitExpr value htvalue hvvalue s).evaluated.bind fun o _ => renders_render.bind fun shown _ =>
      (ih htrest hvrest hmore).bind fun after _ => writes_pure ?_
    rintro page hafter hshown ⟨htype, hevaluated⟩ hlegible hnul
    rw [List.mem_append, List.mem_cons, not_or, not_or] at hnul
    obtain ⟨hpiece, -, hnul⟩ := hnul
    obtain ⟨out, hout, hreads⟩ := hshown hlegible htype
    obtain ⟨passed, hpasses, hrest, howned⟩ := hafter hlegible hnul
    refine ⟨⟨o, value.type, out⟩ :: passed, .cons ⟨hevaluated, rfl, hout⟩ hpasses, ?_, ?_⟩
    · show Rendering.Reads _ (fill _ (out :: passed.map (·.shown)))
      rw [Printed.fill_piece hpercent]
      exact ((hplain hpiece).append hreads).append hrest
    · rw [List.filter_cons]
      show (if value.type.isCopyable then [] else [(o, value.type)]) ++ after.2 = _
      rw [howned]
      unfold Passed.unique
      cases value.type.isCopyable <;> rfl

end Emit

/-! ## Macros that print -/

/-- What is printed behind the text of a macro. -/
def Intrinsic.ending : Intrinsic → String
  | print => ""
  | println => "\n"

theorem Intrinsic.ending_eq (intrinsic : Intrinsic) :
    (if decide (intrinsic = println) then "\n" else "") = intrinsic.ending := by
  cases intrinsic <;> rfl

/-- An ending is the same in a format. -/
theorem Intrinsic.reads_ending (intrinsic : Intrinsic) :
    (⟨intrinsic.ending, []⟩ : Rendering).Reads (Printed.text intrinsic.ending) := by
  cases intrinsic <;> simp [Rendering.Reads, ending, Printed.reads, Printed.text]

/-- The call of `printf` with a string constant as its format. -/
def Emit.printfCall (format : Nat) (args : List Operand) : Ir.Instr :=
  .call printfType (.symbol "printf") (⟨.ptr, .string format⟩ :: args)

/-- A call of `printf` that a macro becomes, with the code ahead of it and the code that frees what was printed. -/
structure PrintCall where
  before : List Ir.Line
  passed : List Passed
  format : Nat
  args : List Operand
  result : Nat
  frees : List (List Ir.Line)

namespace PrintCall

/-- The lines of a call. -/
def code (p : PrintCall) : List Ir.Line :=
  p.before ++ .result p.result (Emit.printfCall p.format p.args) :: p.frees.flatten

/-- The format and the arguments of the call print the text of a macro with its values in their places, and the values
that are unique are freed. -/
structure Prints (p : PrintCall) (page : Page) (intrinsic : Intrinsic) (text : String) (values : List Core.Expr) :
    Prop where
  passes : List.Forall₂ page.Passes values p.passed
  reads : ∃ format, page.text? p.format = some format ∧ Printed.reads format.toList p.args =
    some (Printed.fill text.toList (p.passed.map (·.shown)) ++ Printed.text intrinsic.ending)
  frees : List.Forall₂ (fun (v : Passed) lines => Releases page.context v.operand v.type lines)
    (p.passed.filter (·.unique)) p.frees

end PrintCall

namespace Emit

open Emitter (Ready On)
open OwnLang.Core (TypeEnv Values)

variable {s t : Emitter} {Γ : TypeEnv}

/-- The call of `printf` comes last in a block that is open. -/
theorem callPrintf_eq_ok {r : Rendering} {u : Unit} (hs : s.Ready) (h : callPrintf r s = .ok u t) :
    ∃ number k between, t.builder.strings[number]? = some r.format ∧
      t.code = s.code ++ between ++ [.result k (printfCall number r.args)] ∧
        t.builder.isTerminated = false := by
  obtain ⟨f, hf⟩ := Option.isSome_iff_exists.mp hs.isOpen
  obtain ⟨format, s₁, hstring, h⟩ := Run.bind_eq_ok.mp h
  obtain ⟨result, s₂, hcall, h⟩ := Run.bind_eq_ok.mp h
  cases h
  obtain ⟨number, hformat, htext⟩ := Build.string_text r.format s.builder
  have hsame : (Build.string r.format s.builder).2.function = some f := by
    rw [Build.string_apply]
    split <;> exact hf
  rw [build_apply, hformat] at hstring
  obtain ⟨rfl, rfl⟩ := Outcome.ok.inj hstring
  obtain ⟨k, g, between, -, hg, hcode, hopen⟩ := Build.result_code (.int 32) (printfCall number r.args) hsame
  have hstrings := (Extending.kept hcall).builder.strings number _ htext
  have hbuilder : t.builder =
      (Build.result (.int 32) (printfCall number r.args) (Build.string r.format s.builder).2).2 := by
    rw [build_apply] at hcall
    exact (congrArg Emitter.builder (Outcome.ok.inj hcall).2).symm
  refine ⟨number, k, between, hstrings, ?_, isTerminated_eq_false.mpr ⟨g, hbuilder ▸ hg, hopen⟩⟩
  rw [Emitter.code_eq hf, Emitter.code_eq (hbuilder ▸ hg), hcode]

/-- Behind the call of `printf` stands only what frees the unique values. -/
theorem printValues_eq_ok {page : Page} {r : Rendering} {newline : Bool} {owned : List (Operand × Ty)} {u : Unit}
    (hs : s.Ready) (h : printValues r newline owned s = .ok u t)
    (howned : ∀ o ∈ owned, o.2.isCopyable = false ∧ ∃ w out, Shows page w o.2 out) :
    ∃ number k between frees, t.builder.strings[number]? = some (r.format ++ if newline then "\n" else "") ∧
      t.code = s.code ++ between ++
        .result k (printfCall number r.args) :: frees.flatten ∧
      List.Forall₂ (fun (o : Operand × Ty) lines => Releases s.context o.1 o.2 lines) owned frees := by
  obtain ⟨⟨⟩, s₁, hcall, h⟩ := Run.bind_eq_ok.mp h
  obtain ⟨⟨⟩, s₂, hloop, h⟩ := Run.bind_eq_ok.mp h
  cases h
  obtain ⟨number, k, between, hformat, hcode, hopen⟩ := callPrintf_eq_ok hs hcall
  have hputs : Puts s.context s₁ (forIn owned PUnit.unit fun o _ => do
      release o.1 o.2
      pure (ForInStep.yield PUnit.unit)) fun _ lines => ∃ frees,
        List.Forall₂ (fun (o : Operand × Ty) lines => Releases s.context o.1 o.2 lines) owned frees ∧
          lines = frees.flatten :=
    puts_forIn fun o ho s₂ => (puts_release o.2 (howned o ho).1 o.1 s₂ (howned o ho).2).bind
      fun _ _ lines hlines => puts_pure ⟨rfl, by simpa using hlines⟩
  obtain ⟨-, lines, hlines, frees, hfrees, rfl⟩ := hputs ⟨(Extending.kept hcall).context, hopen⟩ hloop
  refine ⟨number, k, between, frees, (Extending.kept hloop).builder.strings number _ hformat, ?_, hfrees⟩
  have hargs : (r ++ (⟨if newline then "\n" else "", []⟩ : Rendering)).args = r.args := List.append_nil _
  rw [hlines, hcode, hargs, List.append_assoc, List.singleton_append]

/-- A macro that prints becomes one call of `printf`. -/
theorem prints_emitMacro {intrinsic : Intrinsic} {span : Span} {args : List Core.Expr} {o : Operand} (hs : s.Ready)
    (h : emitMacro intrinsic span args s = .ok o t) (ht : ∀ a ∈ args, a.Typed Γ) (hv : ∀ a ∈ args, Values a.parts) :
    o = .void ∧ ∃ format values text, args = format :: values ∧ format.constant = some (.str text) ∧
      text.toList.count '%' = values.length ∧ ('\x00' ∉ text.toList → ∀ page, t.On page → page.context.Legible →
        ∃ p : PrintCall, p.Prints page intrinsic text values ∧ t.code = s.code ++ p.code) := by
  cases args with
  | nil => cases h
  | cons format values =>
    obtain ⟨pieces, s₀, hformat, hrest⟩ := Run.bind_eq_ok.mp h
    obtain ⟨hconstant, rfl, hcount, rfl⟩ := Stage.requireFormat_eq_ok hformat
    obtain ⟨⟨rendering, owned⟩, s₁, hpieces, hrest⟩ := Run.bind_eq_ok.mp hrest
    obtain ⟨⟨⟩, s₂, hprint, hrest⟩ := Run.bind_eq_ok.mp hrest
    cases hrest
    generalize Exec.Activation.formatText format = text at hconstant hcount hpieces
    have hvalues : text.toList.count '%' = values.length := by
      rw [← hcount, piecesOf, List.length_map, length_pieces, Nat.add_sub_cancel]
    refine ⟨rfl, format, values, text, rfl, hconstant, hvalues, fun hnul page hpage hlegible => ?_⟩
    obtain ⟨⟨-, hs₁⟩, hshown⟩ := writes_emitPieces (fun v hv => ht v (List.mem_cons_of_mem _ hv))
      (fun v hmem => hv v (List.mem_cons_of_mem _ hmem)) hvalues hs hpieces
    have hs₂ := Extending.kept hprint
    obtain ⟨passed, hpasses, hreads, rfl⟩ := hshown page (hpage.before hs₂) hlegible hnul
    obtain ⟨number, k, between, frees, hformat, hcode, hfrees⟩ := printValues_eq_ok (hs.later hs₁) hprint fun o ho => by
      obtain ⟨p, hp, rfl⟩ := List.mem_map.mp ho
      obtain ⟨hp, hunique⟩ := List.mem_filter.mp hp
      exact ⟨by simpa [Passed.unique] using hunique, _, _, Page.shows_passed hpasses p hp⟩
    rw [intrinsic.ending_eq] at hformat
    obtain ⟨first, hfirst⟩ := hs₁.code
    refine ⟨⟨first ++ between, passed, number, rendering.args, k, frees⟩,
      ⟨hpasses, ⟨_, hpage.strings _ _ hformat, ?_⟩, ?_⟩, ?_⟩
    · have hargs : (rendering ++ (⟨intrinsic.ending, []⟩ : Rendering)).args = rendering.args := List.append_nil _
      have hall := hreads.append intrinsic.reads_ending
      rwa [Rendering.Reads, hargs] at hall
    · rw [List.forall₂_map_left_iff] at hfrees
      rwa [(hpage.before hs₂).context] at hfrees
    · rw [hcode, ← hfirst]
      simp [PrintCall.code]

/-- The call of a macro is the code that the emitter provides. -/
theorem emitExpr_macroCall {call : Core.Expr} {id : MacroId} {args : List Core.Expr} {o : Operand}
    (hkind : call.kind = .macroCall id args) (hvoid : call.type.shape.isVoid = true)
    (h : emitExpr call s = .ok o t) : ∃ intrinsic, Intrinsic.ofPath? (s.context.macroDef id).fullName = some intrinsic ∧
      emitMacro intrinsic call.span args s = .ok o t := by
  obtain ⟨kind, type, constant, span⟩ := call
  obtain rfl := hkind
  have hunknown : literal? type constant = none := by
    change type.shape.isVoid = true at hvoid
    unfold literal?
    split
    all_goals
      rename_i hshape
      first | rfl | (rw [hshape] at hvoid; cases hvoid)
  unfold emitExpr emitKind at h
  rw [hunknown] at h
  obtain ⟨_, _, hcontext, h⟩ := Run.bind_eq_ok.mp h
  cases hcontext
  cases hintrinsic : Intrinsic.ofPath? (s.context.macroDef id).fullName with
  | none =>
    rw [hintrinsic] at h
    cases h
  | some intrinsic =>
    rw [hintrinsic] at h
    exact ⟨intrinsic, rfl, h⟩

/-- The expression of a statement is evaluated ahead of everything else that the statement does. -/
theorem emitStmt_eq_ok {stmt : Core.Stmt} {call : Core.Expr} {u : Unit}
    (hkind : (∃ release, stmt.kind = .expr call release) ∨ ∃ drops, stmt.kind = .ret (some call) drops)
    (h : emitStmt stmt s = .ok u t) : ∃ o s₁, emitExpr call s = .ok o s₁ ∧ s₁.Extends t := by
  obtain ⟨kind, span, dead⟩ := stmt
  unfold emitStmt at h
  rcases hkind with ⟨release, hkind⟩ | ⟨drops, hkind⟩
  · obtain rfl := hkind
    obtain ⟨o, s₁, hcall, hrest⟩ := Run.bind_eq_ok.mp h
    exact ⟨o, s₁, hcall, Extending.kept hrest⟩
  · obtain rfl := hkind
    obtain ⟨_, s₁, hresult, hrest⟩ := Run.bind_eq_ok.mp h
    obtain ⟨o, hcall, rfl⟩ := Run.map_eq_ok.mp hresult
    exact ⟨o, s₁, hcall, Extending.kept hrest⟩

end Emit

/-! ## Statements of a body -/

namespace Emit

open OwnLang.Core (TypeEnv Stmt StmtKind Block emittedStmts emittedBranches emittedOptionalBlock emittedOptionalStmt)

variable {α β : Type} {Γ : TypeEnv} {returns : Ty} {stmts first rest : List Stmt} {e : Emit α} {f : α → Emit β}

/-- Statements are well typed, and are emitted in the course of a part of emission. -/
structure Emits (Γ : TypeEnv) (returns : Ty) (stmts : List Stmt) (e : Emit α) : Prop extends Extending e where
  typed : ∀ stmt ∈ stmts, stmt.Typed Γ returns
  emitted : ∀ stmt ∈ stmts, ∀ ⦃s a t⦄, e s = .ok a t →
    ∃ s₁ t₁, s.Extends s₁ ∧ emitStmt stmt s₁ = .ok ⟨⟩ t₁ ∧ t₁.Extends t

theorem emits_extending [he : Extending e] : Emits Γ returns [] e := ⟨he, nofun, nofun⟩

theorem Emits.bind [Nonempty α] (he : Emits Γ returns first e) (hf : ∀ a, Emits Γ returns rest (f a)) :
    Emits Γ returns (first ++ rest) (e >>= f) where
  kept h := by
    obtain ⟨a, s, hx, hy⟩ := Run.bind_eq_ok.mp h
    exact (he.kept hx).trans ((hf a).kept hy)
  typed := by
    obtain ⟨a⟩ := ‹Nonempty α›
    exact List.forall_mem_append.mpr ⟨he.typed, (hf a).typed⟩
  emitted stmt hstmt s b u h := by
    obtain ⟨a, t, hx, hy⟩ := Run.bind_eq_ok.mp h
    rcases List.mem_append.mp hstmt with hstmt | hstmt
    · obtain ⟨s₁, t₁, hs₁, hrun, ht₁⟩ := he.emitted stmt hstmt hx
      exact ⟨s₁, t₁, hs₁, hrun, ht₁.trans ((hf a).kept hy)⟩
    · obtain ⟨s₁, t₁, hs₁, hrun, ht₁⟩ := (hf a).emitted stmt hstmt hy
      exact ⟨s₁, t₁, (he.kept hx).trans hs₁, hrun, ht₁⟩

theorem Emits.before [Nonempty α] (he : Emits Γ returns stmts e) [∀ a, Extending (f a)] :
    Emits Γ returns stmts (e >>= f) := by
  have hall : Emits Γ returns (stmts ++ []) (e >>= f) := he.bind fun a => emits_extending
  rwa [List.append_nil] at hall

theorem Emits.behind [Nonempty α] [Extending e] (hf : ∀ a, Emits Γ returns stmts (f a)) :
    Emits Γ returns stmts (e >>= f) :=
  emits_extending.bind hf

theorem emits_emitLoop {id : LoopId} {condition : Option Core.Expr} {body step : Emit Unit} {exitDrops : List LocalId}
    (hbody : Emits Γ returns first body) (hstep : Emits Γ returns rest step) :
    Emits Γ returns (first ++ rest) (emitLoop id condition body step exitDrops) := by
  have henter (labels : LoopLabels) : Growing (fun _ => False) 0 (enterLoop id labels) :=
    growing_enterLoop not_false labels
  unfold emitLoop
  refine .behind fun _ => .behind fun _ => .behind fun _ => .behind fun _ => .behind fun _ => .behind fun _ =>
    .behind fun _ => .behind fun _ => hbody.bind fun _ => .behind fun _ => hstep.before

theorem emits_emitBranch {condition : Core.Expr} {body : Emit Unit} {done : Ir.Label}
    (hbody : Emits Γ returns stmts body) : Emits Γ returns stmts (emitBranch condition body done) := by
  unfold emitBranch
  exact .behind fun _ => .behind fun _ => .behind fun _ => .behind fun _ => .behind fun _ => hbody.before

mutual

theorem emits_emitBlock : (b : Block) → b.Typed Γ returns → Emits Γ returns b.emitted (emitBlock b)
  | .mk stmts drops, h => by
    have hstmts : ∀ s ∈ stmts, s.Typed Γ returns := by
      cases h
      assumption
    unfold emitBlock
    exact (emits_emitStmts stmts hstmts).before

theorem emits_emitStmts : (stmts : List Stmt) → (∀ s ∈ stmts, s.Typed Γ returns) →
    Emits Γ returns (emittedStmts stmts) (emitStmts stmts)
  | [], _ => by
    unfold emitStmts
    exact emits_extending
  | s :: rest, h => by
    have hs := emits_emitStmt s (h s List.mem_cons_self)
    have hrest := emits_emitStmts rest fun s hs => h s (List.mem_cons_of_mem _ hs)
    unfold emitStmts emittedStmts
    cases s.unreachable with
    | true => exact hrest
    | false => exact hs.bind fun _ => hrest

theorem emits_emitStmt : (s : Stmt) → s.Typed Γ returns → Emits Γ returns s.emitted (emitStmt s)
  | .mk kind span dead, h => by
    have hkind := emits_emitStmtKind span dead kind h
    unfold Stmt.emitted
    refine ⟨⟨?_⟩, List.forall_mem_cons.mpr ⟨h, hkind.typed⟩, ?_⟩
    · unfold emitStmt
      exact hkind.kept
    · intro stmt hstmt s a t hrun
      rcases List.mem_cons.mp hstmt with rfl | hstmt
      · exact ⟨s, t, .refl _, hrun, .refl _⟩
      · unfold emitStmt at hrun
        exact hkind.emitted stmt hstmt hrun

theorem emits_emitStmtKind (span : Span) (dead : Bool) : (kind : StmtKind) →
    (Stmt.mk kind span dead).Typed Γ returns → Emits Γ returns kind.emitted (emitStmtKind kind)
  | .declare id value, _ | .assign target value releasePrior, _ | .expr value unused, _ | .ret value drops, _
  | .brk id drops, _ | .cont id drops, _ => by
    unfold emitStmtKind
    exact emits_extending
  | .cond branches otherwise, h => by
    have htyped : (∀ branch ∈ branches, branch.2.Typed Γ returns) ∧
        ∀ b, otherwise = some b → b.Typed Γ returns := by
      cases h with
      | cond htests hbodies hotherwise => exact ⟨hbodies, hotherwise⟩
    have hotherwise := emits_emitOptionalBlock otherwise htyped.2
    have hbranches (done : Ir.Label) := emits_emitBranches done branches htyped.1 hotherwise
    unfold emitStmtKind
    exact .behind fun done => (hbranches done).before
  | .loop id init condition step body exitDrops, h => by
    cases h with
    | loop hinit htest hstep hbody =>
      unfold emitStmtKind
      exact (emits_emitOptionalStmt init hinit).bind fun _ =>
        emits_emitLoop (emits_emitBlock body hbody) (emits_emitOptionalStmt step hstep)
  | .scope block, h => by
    have htyped : block.Typed Γ returns := by
      cases h
      assumption
    unfold emitStmtKind
    exact emits_emitBlock block htyped

theorem emits_emitBranches {others : List Stmt} {otherwise : Emit Unit} (done : Ir.Label) :
    (branches : List (Core.Expr × Block)) → (∀ branch ∈ branches, branch.2.Typed Γ returns) →
    Emits Γ returns others otherwise →
    Emits Γ returns (emittedBranches others branches) (emitBranches done branches otherwise)
  | [], _, hotherwise => by
    unfold emitBranches
    exact hotherwise
  | (condition, body) :: more, h, hotherwise => by
    have hbody := emits_emitBlock body (h _ List.mem_cons_self)
    have hmore := emits_emitBranches done more (fun b hb => h b (List.mem_cons_of_mem _ hb)) hotherwise
    unfold emitBranches emittedBranches
    cases condition.known? with
    | none => exact (emits_emitBranch hbody).bind fun _ => hmore
    | some known =>
      cases known with
      | false => exact hmore
      | true => exact hbody

theorem emits_emitOptionalBlock : (b : Option Block) → (∀ block, b = some block → block.Typed Γ returns) →
    Emits Γ returns (emittedOptionalBlock b) (emitOptionalBlock b)
  | none, _ => by
    unfold emitOptionalBlock
    exact emits_extending
  | some b, h => by
    unfold emitOptionalBlock
    exact emits_emitBlock b (h b rfl)

theorem emits_emitOptionalStmt : (s : Option Stmt) → (∀ stmt, s = some stmt → stmt.Typed Γ returns) →
    Emits Γ returns (emittedOptionalStmt s) (emitOptionalStmt s)
  | none, _ => by
    unfold emitOptionalStmt
    exact emits_extending
  | some s, h => by
    unfold emitOptionalStmt
    exact emits_emitStmt s (h s rfl)

end

end Emit

/-! ## Programs -/

/-- A call of a macro stands in the code of a function, ahead of what else its statement does. -/
def PrintCall.Stands (p : PrintCall) (stmt : Core.Stmt) (call : Core.Expr) (lines : List Ir.Line) : Prop :=
  ∃ s t u : Emitter, Emit.emitStmt stmt s = .ok ⟨⟩ u ∧ Emit.emitExpr call s = .ok .void t ∧
    t.code = s.code ++ p.code ∧ t.code <+: u.code ∧ u.code <+: lines

/-- The function of a body stands on its page. -/
theorem Emitter.Built.on {s reserved built : Emitter} {body : Body} {m : Ir.Module} {strings : Array String}
    (h : s.Built body reserved built) (hbegins : Ir.Begins built.builder.strings strings)
    (hlisted : ∀ n, m.text? n = strings[n]?) :
    built.On ⟨s.context, built.fn.definition.body.toList, m.text?⟩ where
  context := h.grows.context.trans h.context
  code := by
    obtain ⟨f, hf⟩ := Option.isSome_iff_exists.mp h.isOpen
    rw [Emitter.code_eq hf, Emitter.fn_eq hf]
    refine List.prefix_iff_getElem?.mpr fun i hi => ?_
    show f.code.toList[i]? = _
    rw [Array.getElem?_toList]
    exact f.begins_code i _ (by simp)
  strings n text htext := (hlisted n).trans (hbegins n text htext)

theorem Emitter.Reserved.ready {locals : List Local} {s : Emitter} (h : s.Reserved locals) : s.Ready where
  isOpen := h.isOpen
  slots a ha := by
    obtain ⟨i, hi, rfl⟩ := Array.getElem_of_mem ha
    obtain ⟨⟨k, type, haddress, -⟩, -⟩ := h.slots i _ _ (Array.getElem?_eq_getElem hi)
    exact haddress ▸ rfl

section

variable {options : Options} {files : List SourceFile} {c : Context} {body : Body} {stmt : Core.Stmt} {call : Core.Expr}
  {id : MacroId} {args : List Core.Expr}

/-- The arguments of a macro whose call stands in a statement are typed. -/
theorem Core.Stmt.Typed.macroCall {Γ : Core.TypeEnv} {returns : Ty} (h : stmt.Typed Γ returns)
    (hform : (∃ release, stmt.kind = .expr call release) ∨ ∃ drops, stmt.kind = .ret (some call) drops)
    (hkind : call.kind = .macroCall id args) : ∀ a ∈ args, a.Typed Γ := by
  have hcall : call.Typed Γ := by
    obtain ⟨kind, span, dead⟩ := stmt
    rcases hform with ⟨release, hform⟩ | ⟨drops, hform⟩
    · obtain rfl := hform
      cases h
      assumption
    · obtain rfl := hform
      cases h with
      | ret hvalue _ => exact (hvalue call rfl).1
  obtain ⟨kind, type, constant, span⟩ := call
  obtain rfl := hkind
  cases hcall
  assumption

/-- A macro that prints is called with a constant text, which has as many percent signs as there are values. -/
structure PrintMacro (c : Context) (id : MacroId) (args : List Core.Expr) (intrinsic : Intrinsic) (text : String)
    (values : List Core.Expr) : Prop where
  intrinsic : Intrinsic.ofPath? (c.macroDef id).fullName = some intrinsic
  args : ∃ format, args = format :: values ∧ format.constant = some (.str text)
  count : text.toList.count '%' = values.length

/-- What the call of a macro becomes, wherever it is emitted. -/
theorem Emit.printCall_emitExpr {Γ : Core.TypeEnv} {s t : Emitter} {o : Operand} (hs : s.Ready)
    (hlegible : s.context.Legible) (hkind : call.kind = .macroCall id args) (hvoid : call.type.shape.isVoid = true)
    (ht : ∀ a ∈ args, a.Typed Γ) (hv : ∀ a ∈ args, Core.Values a.parts) (h : Emit.emitExpr call s = .ok o t) :
    o = .void ∧ ∃ intrinsic text values, PrintMacro s.context id args intrinsic text values ∧
      ('\x00' ∉ text.toList → ∀ page, t.On page →
        ∃ p : PrintCall, p.Prints page intrinsic text values ∧ t.code = s.code ++ p.code) := by
  have hcontext := (Emit.Extending.kept h).context
  obtain ⟨intrinsic, hintrinsic, hmacro⟩ := Emit.emitExpr_macroCall hkind hvoid h
  obtain ⟨ho, format, values, text, hargs, hconstant, hcount, hprints⟩ := Emit.prints_emitMacro hs hmacro ht hv
  refine ⟨ho, intrinsic, text, values, ⟨hintrinsic, ⟨format, hargs, hconstant⟩, hcount⟩, fun hnul page hpage => ?_⟩
  exact hprints hnul page hpage (hpage.context ▸ hcontext ▸ hlegible)

/-- A statement is emitted in the function of its body. -/
theorem Emit.Emitted.of_mem {strings : Array String} {f : Ir.Function} {m : Ir.Module}
    (hf : Emit.Emitted c strings body f) (hlisted : ∀ n, m.text? n = strings[n]?) (htyped : body.Typed c)
    (hstmt : stmt ∈ body.block.emitted) :
    ∃ s t, s.Ready ∧ s.context = c ∧ t.On ⟨c, f.body.toList, m.text?⟩ ∧ Emit.emitStmt stmt s = .ok ⟨⟩ t := by
  obtain ⟨s₀, reserved, built, rfl, hbuilt, hbegins, rfl⟩ := hf
  obtain ⟨_, stored, hstore, hblock⟩ := Run.bind_eq_ok.mp hbuilt.code
  have hstored := Emit.Extending.kept hstore
  obtain ⟨s, t, hs, hrun, ht⟩ := (Emit.emits_emitBlock body.block htyped.block).emitted stmt hstmt hblock
  have hbefore := hstored.trans hs
  exact ⟨s, t, hbuilt.slots.ready.later hbefore, hbefore.context.trans hbuilt.context,
    (hbuilt.on hbegins hlisted).before ht, hrun⟩

/-- The call of a macro is emitted in the function of its body. -/
theorem Emit.Emitted.emitted {strings : Array String} {f : Ir.Function} {m : Ir.Module}
    (hf : Emit.Emitted c strings body f) (hlisted : ∀ n, m.text? n = strings[n]?) (htyped : body.Typed c)
    (hstmt : stmt ∈ body.block.emitted)
    (hform : (∃ release, stmt.kind = .expr call release) ∨ ∃ drops, stmt.kind = .ret (some call) drops) :
    ∃ s t u o, s.Ready ∧ s.context = c ∧ t.On ⟨c, f.body.toList, m.text?⟩ ∧ Emit.emitStmt stmt s = .ok ⟨⟩ u ∧
      Emit.emitExpr call s = .ok o t ∧ t.code <+: u.code ∧ u.code <+: f.body.toList := by
  obtain ⟨s, u, hs, hc, hpage, hrun⟩ := hf.of_mem hlisted htyped hstmt
  obtain ⟨o, t, hemitted, ht⟩ := Emit.emitStmt_eq_ok hform hrun
  exact ⟨s, t, u, o, hs, hc, hpage.before ht, hrun, hemitted, ht.code, hpage.code⟩

/-- Whether an expression is the call of a macro that prints a text with a number of values. -/
def Core.Expr.printsText (c : Context) (text : String) (count : Nat) (e : Core.Expr) : Bool :=
  match e.kind with
  | .macroCall id (.mk _ _ (some (.str constant)) _ :: values) =>
    (Intrinsic.ofPath? (c.macroDef id).fullName).isSome && constant == text && values.length == count
  | _ => false

theorem Core.Expr.printsText_iff {text : String} {count : Nat} {e : Core.Expr}
    (h : e.printsText c text count = true) : ∃ id format values, e.kind = .macroCall id (format :: values) ∧
      (Intrinsic.ofPath? (c.macroDef id).fullName).isSome ∧ format.constant = some (.str text) ∧
      values.length = count := by
  unfold printsText at h
  split at h
  · rename_i id kind type constant span values hkind
    simp only [Bool.and_eq_true, beq_iff_eq] at h
    obtain ⟨⟨hsome, rfl⟩, hcount⟩ := h
    exact ⟨id, _, values, hkind, hsome, rfl, hcount⟩
  · cases h

/-- Whether a checked program is compiled whose body at a place has a statement that prints a text. -/
def compilesWith (checked : Except Failure Context) (i : Nat) (stmts : Body → List Core.Stmt) (text : String)
    (count : Nat) : Bool :=
  match checked with
  | .ok c => (c.bodies[i]?.any fun body => (stmts body).any fun stmt => stmt.parts.any (·.printsText c text count)) &&
    ((fatalWarning? c).isNone && (emitModule c).isOk)
  | .error _ => false

theorem compilesWith_iff {i : Nat} {stmts : Body → List Core.Stmt} {text : String} {count : Nat}
    (h : compilesWith (checkProgram options files) i stmts text count = true) :
    ∃ c compiled body stmt call, checkProgram options files = .ok c ∧ compile options files = .ok compiled ∧
      c.bodies[i]? = some body ∧ stmt ∈ stmts body ∧ call ∈ stmt.parts ∧ call.printsText c text count = true := by
  unfold compilesWith at h
  cases hchecked : checkProgram options files with
  | error why =>
    rw [hchecked] at h
    cases h
  | ok c =>
    rw [hchecked] at h
    simp only [Bool.and_eq_true] at h
    obtain ⟨hprints, hwarning, hmodule⟩ := h
    obtain ⟨body, hbody, hprints⟩ := (Option.any_eq_true _ _).mp hprints
    obtain ⟨stmt, hstmt, hprints⟩ := List.any_eq_true.mp hprints
    obtain ⟨call, hcall, hprints⟩ := List.any_eq_true.mp hprints
    cases hm : emitModule c with
    | error why =>
      rw [hm] at hmodule
      cases hmodule
    | ok m =>
      refine ⟨c, { module := m, warnings := c.warnings.toList }, body, stmt, call, rfl, ?_, hbody, hstmt, hcall,
        hprints⟩
      unfold compile
      simp only [hchecked, bind, Except.bind, Option.isNone_iff_eq_none.mp hwarning, hm]
      rfl

/-- The call of a macro that is accepted stands by itself in a statement or in a `return`, and makes nothing. Its
arguments are typed, and are values that the emitter knows. -/
theorem macroCall_checkProgram (hstd : options.includeStd = true) (h : checkProgram options files = .ok c)
    (hbody : body ∈ c.bodies) (hstmt : stmt ∈ body.block.emitted) (hcall : call ∈ stmt.parts)
    (hkind : call.kind = .macroCall id args) :
    ((∃ release, stmt.kind = .expr call release) ∨ ∃ drops, stmt.kind = .ret (some call) drops) ∧
      call.type.shape.isVoid = true ∧ (∀ a ∈ args, a.Typed (c.envWith body.locals)) ∧
        ∀ a ∈ args, Core.Values a.parts := by
  have htyped := (Session.reachable_checkProgram h).moment.wellTyped.bodies body hbody
  obtain ⟨hform, hvoid, hvalues⟩ :=
    ((Check.valued_checkProgram hstd h).bodies body hbody stmt hstmt).macroCall hcall hkind
  exact ⟨hform, hvoid,
    ((Emit.emits_emitBlock body.block htyped.block).typed stmt hstmt).macroCall hform hkind, hvalues⟩

/-- In a program that is compiled, the call of a macro is one call of `printf` in the function of its body. -/
theorem printCall_compile (hstd : options.includeStd = true) (h : checkProgram options files = .ok c) {i : Nat}
    (hbody : c.bodies[i]? = some body) (hstmt : stmt ∈ body.block.emitted) (hcall : call ∈ stmt.parts)
    (hkind : call.kind = .macroCall id args) {compiled : Compilation} (hcompiled : compile options files = .ok compiled) :
    ∃ f intrinsic text values, compiled.module.definitions[i]? = some f ∧ f.name = (c.global body.function).symbol ∧
      PrintMacro c id args intrinsic text values ∧ ('\x00' ∉ text.toList → ∃ p : PrintCall,
        p.Prints ⟨c, f.body.toList, compiled.module.text?⟩ intrinsic text values ∧
          p.Stands stmt call f.body.toList) := by
  have hc := Session.reachable_checkProgram h
  have hmem : body ∈ c.bodies := Array.mem_of_getElem? hbody
  obtain ⟨hform, hvoid, hargs, hvalues⟩ := macroCall_checkProgram hstd h hmem hstmt hcall hkind
  obtain ⟨c', hchecked, hmodule⟩ := compile_eq_ok hcompiled
  obtain rfl : c = c' := Except.ok.inj (h.symm.trans hchecked)
  obtain ⟨t, hprogram, hm⟩ := Emit.emitModule_eq_ok hmodule
  obtain ⟨functions, last, hdefined⟩ :=
    Emit.emitted_emitProgram (fun body hbody => (hc.orderly body hbody).nested) hprogram
  obtain ⟨hi, hget⟩ := Array.getElem?_eq_some_iff.mp hbody
  have hif : i < functions.length := hdefined.bodies.length_eq ▸ hi
  have hf : Emit.Emitted c t.builder.strings body functions[i] := hget ▸ hdefined.bodies.get hi hif
  rw [hm]
  obtain ⟨s, t, u, o, hs, rfl, ht, hrun, hemitted, htu, hu⟩ :=
    hf.emitted hdefined.listed (hc.moment.wellTyped.bodies body hmem) hstmt hform
  obtain ⟨rfl, intrinsic, text, values, hmacro, hprints⟩ :=
    Emit.printCall_emitExpr hs (Session.legible_checkProgram h) hkind hvoid hargs hvalues hemitted
  refine ⟨functions[i], intrinsic, text, values, ?_, ?_, hmacro, fun hnul => ?_⟩
  · rw [← Array.getElem?_toList, hdefined.definitions, List.getElem?_append_left hif, List.getElem?_eq_getElem hif]
  · obtain ⟨s, reserved, built, hs, hbuilt, -, hf⟩ := hf
    rw [hf, ← hs]
    exact hbuilt.head
  · obtain ⟨p, hp, hcode⟩ := hprints hnul _ ht
    exact ⟨p, hp, s, t, u, hrun, hemitted, hcode, htu, hu⟩

end

/-- A struct with an array is printed, and what a method makes of an owned one. -/
def pairSources : List SourceFile :=
  [⟨"main.own", String.join
    [ "struct Pair \x7b var a: i8[2]; \x7d ",
      "struct Name \x7b const fn _string(): const i8[] \x7b return \"\"; \x7d \x7d ",
      "fn f(p: Pair, n: &Name) \x7b println!(\"%, %\", p, n); \x7d" ]⟩]

/-- Nothing is printed behind `return`. -/
def returnedSources : List SourceFile := [⟨"main.own", "fn f() \x7b return; print!(\"%\"); \x7d"⟩]

end OwnLang
