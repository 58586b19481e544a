import Mathlib
import OwnLang.Proofs.Check.Entities
import OwnLang.Proofs.Check.Moves
import OwnLang.Proofs.Check.Invariant
import OwnLang.Proofs.Core.Eval
import OwnLang.Proofs.Ty.Same

/-!
# Constants that checking knows

A constant that checking attaches to a value is what the value's tree evaluates to (`Folded`), in
every store that holds what is known of constant variables. What is known of a variable comes from
the initializer that was checked before, so two things are proved at once, by induction on the
nesting of queries: answers are sound, and every constant that a context remembers fits its type
(`Known`). What a context remembers is never forgotten or changed, so a tree that was folded early
still evaluates to its constant when all of the expression is checked.
-/

namespace OwnLang

open OwnLang.Core (Store Value)

/-- A store that holds the known values of constant variables. -/
structure Core.Store.Holds (σ : Store) (c : Context) : Prop where
  locals : ∀ id v, ((c.frame.getD default).localAt id).constant →
    ((c.frame.getD default).localAt id).value = some v →
    σ.locals id = v.value? ((c.frame.getD default).localAt id).type.shape
  globals : ∀ id v t, (c.global id).constant → (c.global id).value = some v →
    (c.global id).type = some t → σ.globals id = v.value? t.shape

namespace Check

/-- An expression evaluates to a constant that fits its type. No part of it calls or allocates, and
all of its parts have values. -/
structure Folded (c : Context) (e : Core.Expr) (v : Const) : Prop where
  fits : v.Fits e.type.shape
  value : ∀ σ : Store, σ.Holds c → e.eval σ = v.value? e.type.shape
  parts : ∀ part ∈ e.parts, part.isEffect = false ∧ ∀ σ : Store, σ.Holds c → (part.eval σ).isSome

/-- What is known of an expression is what it evaluates to. -/
def Folds (c : Context) (e : Core.Expr) : Prop := ∀ v, e.constant = some v → Folded c e v

/-- The constants that a context remembers fit their types, and it has kept what an earlier context
remembered. -/
structure Known (origin c : Context) : Prop where
  globals : ∀ id v, (c.global id).value = some v →
    ∃ t, (c.global id).type = some t ∧ (c.global id).state = .complete ∧ v.Fits t.shape
  kept : ∀ id, Settled (origin.global id) → c.global id = origin.global id
  locals : ∀ id v, ((c.frame.getD default).localAt id).value = some v →
    v.Fits ((c.frame.getD default).localAt id).type.shape

variable {origin c d : Context}

/-! ## Folded trees -/

theorem Folded.mono {e : Core.Expr} {v : Const} (h : Folded c e v)
    (hcd : ∀ σ : Store, σ.Holds d → σ.Holds c) : Folded d e v where
  fits := h.fits
  value σ hσ := h.value σ (hcd σ hσ)
  parts part hpart := ⟨(h.parts part hpart).1, fun σ hσ => (h.parts part hpart).2 σ (hcd σ hσ)⟩

theorem Folds.mono {e : Core.Expr} (h : Folds c e) (hcd : ∀ σ : Store, σ.Holds d → σ.Holds c) :
    Folds d e := fun v hv => (h v hv).mono hcd

theorem Folds.of_none {e : Core.Expr} (h : e.constant = none) : Folds c e := by
  intro v hv
  rw [h] at hv
  cases hv

/-- A node is folded if it has the value and the nodes below it are harmless. -/
theorem Folded.node {kind : Core.ExprKind} {type : Ty} {constant : Option Const} {span : Span}
    {v : Const} (hfits : v.Fits type.shape) (heffect : (Core.Expr.mk kind type constant span).isEffect = false)
    (hvalue : ∀ σ : Store, σ.Holds c → kind.eval σ type = v.value? type.shape)
    (hparts : ∀ part ∈ kind.parts,
      part.isEffect = false ∧ ∀ σ : Store, σ.Holds c → (part.eval σ).isSome) :
    Folded c (.mk kind type constant span) v := by
  have heval (σ : Store) (hσ : σ.Holds c) :
      (Core.Expr.mk kind type constant span).eval σ = v.value? type.shape := by
    rw [Core.Expr.eval_mk, hvalue σ hσ]
  refine ⟨hfits, heval, fun part hpart => ?_⟩
  rw [Core.Expr.parts, List.mem_cons] at hpart
  rcases hpart with rfl | hpart
  · refine ⟨heffect, fun σ hσ => ?_⟩
    rw [heval σ hσ]
    exact hfits.value?_isSome
  · exact hparts part hpart

theorem folded_literal {n : Int} {t : Ty} {width : Width} {span : Span} {e : Core.Expr}
    (ht : t.shape = .int width) (h : Core.Expr.literal n t width span = .ok e) :
    Folds c e ∧ e.type = t := by
  unfold Core.Expr.literal at h
  split at h
  case isFalse => cases h
  case isTrue hfits =>
    cases h
    refine ⟨fun v hv => ?_, rfl⟩
    cases hv
    refine .node (by rw [ht]; exact intFits_iff.mp hfits) rfl (fun σ _ => rfl) ?_
    intro part hpart
    cases hpart

theorem folds_coerce {e e' : Core.Expr} {t : Ty} (he : Folds c e) (h : e.coerce t = .ok e') :
    Folds c e' ∧ e'.type.same t := by
  unfold Core.Expr.coerce at h
  split at h
  case isTrue htype =>
    cases h
    exact ⟨he, htype⟩
  case isFalse =>
    split at h
    case h_1 hcast hconstant =>
      obtain ⟨hfolds, rfl⟩ := folded_literal (c := c) (Core.Cast.between?_int hcast).2 h
      exact ⟨hfolds, Ty.same_refl _⟩
    case h_2 =>
      cases h
      exact ⟨.of_none rfl, Ty.same_refl _⟩
    case h_3 hcast =>
      cases h
      obtain ⟨hsource, htarget⟩ := Core.Cast.between?_pointer hcast
      refine ⟨fun v hv => ?_, Ty.same_refl _⟩
      have hfolded := he v hv
      obtain ⟨text, rfl⟩ := (Const.fits_address hsource).mp hfolded.fits
      exact .node ((Const.fits_address htarget).mpr ⟨text, rfl⟩) rfl
        (fun σ hσ => Core.ExprKind.eval_cast t _ (hfolded.value σ hσ)) hfolded.parts
    case h_4 => cases h

theorem foldUnary_eq_ok {op : Surface.UnaryOp} {e : Core.Expr} {constant : Option Const}
    {span : Span} (h : foldUnary op e span c = .ok constant d) :
    (op = .neg ∧ ∃ width, e.type.shape = .int width ∧ negated e width span c = .ok constant d) ∨
      op = .not ∧ e.type.shape = .bool ∧
        constant = (e.constant.bind Const.bool?).map fun b => .bool !b := by
  cases op with
  | neg =>
    cases hshape : e.type.shape with
    | int width =>
      simp only [foldUnary, hshape] at h
      exact .inl ⟨rfl, width, rfl, h⟩
    | _ =>
      simp only [foldUnary, hshape] at h
      cases h
  | not =>
    cases hshape : e.type.shape with
    | bool =>
      simp only [foldUnary, hshape] at h
      obtain ⟨rfl, -⟩ := Outcome.ok.inj h
      exact .inr ⟨rfl, rfl, rfl⟩
    | _ =>
      simp only [foldUnary, hshape] at h
      cases h

theorem negated_eq_ok {e : Core.Expr} {width : Width} {span : Span} {constant : Option Const}
    {v : Const} (h : negated e width span c = .ok constant d) (hv : constant = some v) :
    ∃ n, e.constant = some (.int n) ∧ v = .int (-n) ∧ intFits (-n) width.bits := by
  subst hv
  unfold negated at h
  cases hconstant : e.constant with
  | none =>
    rw [hconstant] at h
    cases h
  | some u =>
    cases u with
    | int n =>
      rw [hconstant] at h
      dsimp only at h
      split at h
      case isTrue hfits =>
        cases h
        exact ⟨n, rfl, rfl, hfits⟩
      case isFalse => cases h
    | _ =>
      rw [hconstant] at h
      cases h

theorem folds_unary {op : Surface.UnaryOp} {e : Core.Expr} {constant : Option Const} {span : Span}
    (he : Folds d e) (h : foldUnary op e span c = .ok constant d) :
    Folds d (.mk (.unary op e) e.type constant span) := by
  intro v hv
  obtain ⟨rfl, width, hshape, h⟩ | ⟨rfl, hshape, rfl⟩ := foldUnary_eq_ok h
  · obtain ⟨n, hn, rfl, hfits⟩ := negated_eq_ok h hv
    have hfolded := he _ hn
    refine .node (by rw [hshape]; exact intFits_iff.mp hfits) rfl (fun σ hσ => ?_) hfolded.parts
    rw [Core.ExprKind.eval, hfolded.value σ hσ, hshape]
    simp [Const.value?, Shape.width?, Core.evalUnary, BitVec.ofInt_neg]
  · obtain ⟨b, hb, rfl⟩ := Option.map_eq_some_iff.mp hv
    obtain ⟨u, hu, hb⟩ := Option.bind_eq_some_iff.mp hb
    have hfolded := he _ hu
    cases u with
    | bool b' =>
      cases hb
      refine .node (by rw [hshape]; trivial) rfl (fun σ hσ => ?_) hfolded.parts
      rw [Core.ExprKind.eval, hfolded.value σ hσ]
      simp [Const.value?, Core.evalUnary]
    | _ => cases hb

theorem folds_logical {op : Surface.BinaryOp} {a b : Core.Expr} {span : Span}
    (hop : op.isLogical) (ha : Folds c a) (hb : Folds c b) :
    Folds c (.mk (.binary op a b) Shape.bool.plain (Const.foldLogical op a.constant b.constant)
      span) := by
  intro v hv
  have hlogical : Const.foldLogical op a.constant b.constant = some v := hv
  unfold Const.foldLogical at hlogical
  split at hlogical
  case h_2 => cases hlogical
  case h_1 x y hx hy =>
    cases hlogical
    obtain ⟨u, hu, hx⟩ := Option.bind_eq_some_iff.mp hx
    obtain ⟨w, hw, hy⟩ := Option.bind_eq_some_iff.mp hy
    have hfolded := ha _ hu
    have hfolded' := hb _ hw
    cases u <;> cases hx
    cases w <;> cases hy
    refine .node trivial rfl (fun σ hσ => ?_) fun part hpart => ?_
    · rw [Core.ExprKind.eval, if_pos hop, hfolded.value σ hσ, hfolded'.value σ hσ]
      obtain rfl | rfl : op = .and ∨ op = .or := by
        cases op <;> simp_all [Surface.BinaryOp.isLogical]
      all_goals cases x <;> simp [Core.evalLogical, Const.value?]
    · rcases List.mem_append.mp hpart with hpart | hpart
      · exact hfolded.parts part hpart
      · exact hfolded'.parts part hpart

theorem folds_binary {op : Surface.BinaryOp} {a b : Core.Expr} {t : Ty} {span : Span}
    (ht : t = if op.isComparison then Shape.bool.plain else a.type) (hab : b.type.same a.type)
    (ha : Folds c a) (hb : Folds c b)
    (hfit : ∀ n width, Const.foldBinary op a.constant b.constant = some (.int n) →
      t.shape = .int width → intFits n width.bits) :
    Folds c (.mk (.binary op a b) t (Const.foldBinary op a.constant b.constant) span) := by
  intro v hv
  have hbinary : Const.foldBinary op a.constant b.constant = some v := hv
  have hparts {x y : Const} (hx : Folded c a x) (hy : Folded c b y) :
      ∀ part ∈ (Core.ExprKind.binary op a b).parts,
        part.isEffect = false ∧ ∀ σ : Store, σ.Holds c → (part.eval σ).isSome := by
    intro part hpart
    rcases List.mem_append.mp hpart with hpart | hpart
    · exact hx.parts part hpart
    · exact hy.parts part hpart
  have hwork := hbinary
  unfold Const.foldBinary at hwork
  split at hwork
  case h_1 m n hm hn =>
    have hfolded := ha _ hm
    have hfolded' := hb _ hn
    obtain ⟨width, hshape⟩ := hfolded.fits.int_shape
    have hshape' : b.type.shape = .int width := by
      refine Shape.same_int ?_
      rw [← hshape, ← Ty.same_shape]
      exact hab
    have hwords := evalWords_ofInt (hshape ▸ hfolded.fits) (hshape' ▸ hfolded'.fits) hwork
    have htype : t.shape = if op.isComparison then .bool else .int width := by
      rw [ht]
      split
      · rfl
      · exact hshape
    obtain ⟨hlogical, hcases⟩ := foldInts_cases hwork
    refine .node ?_ rfl (fun σ hσ => ?_) (hparts hfolded hfolded')
    · obtain ⟨hop, x, rfl⟩ | ⟨hop, n, rfl⟩ := hcases
      · rw [htype, if_pos hop]
        trivial
      · rw [htype, hop]
        refine intFits_iff.mp (hfit n width hbinary ?_)
        rw [htype, hop]
        rfl
    · rw [Core.ExprKind.eval, hfolded.value σ hσ, hfolded'.value σ hσ, hshape, hshape', htype,
        ← hwords, hlogical]
      simp [Const.value?, Shape.width?, Core.evalBinary]
  case h_2 x y hx hy =>
    have hfolded := ha _ hx
    have hfolded' := hb _ hy
    obtain ⟨hop, z, hz, rfl⟩ : op.isComparison = true ∧ ∃ z, Core.evalBinary op (.bool x) (.bool y) =
        some (.bool z) ∧ .bool z = v := by
      cases op <;> simp_all [Core.evalBinary, Surface.BinaryOp.isComparison]
    have hlogical : op.isLogical = false := by
      cases op <;> simp_all [Surface.BinaryOp.isComparison, Surface.BinaryOp.isLogical]
    have htype : t.shape = .bool := by
      rw [ht, if_pos hop]
      rfl
    refine .node (by rw [htype]; trivial) rfl (fun σ hσ => ?_) (hparts hfolded hfolded')
    rw [Core.ExprKind.eval, hfolded.value σ hσ, hfolded'.value σ hσ, hlogical]
    exact hz
  case h_3 => cases hwork

/-! ## What contexts remember -/

/-- A local of the frame, if there is one. -/
abbrev slotOf (c : Context) (id : LocalId) : Local := (c.frame.getD default).localAt id

/-- The type of a location is what is known of its variable. -/
def PlaceKnown (c : Context) (place : Core.Place) : Prop :=
  (∀ id, place.kind = .slot id → (slotOf c id).type = place.type) ∧
    ∀ id v, place.kind = .global id → (c.global id).value = some v →
      (c.global id).type = some place.type

theorem readPlace_eq_ok {place : Core.Place} {e : Core.Expr} (h : readPlace place c = .ok e d) :
    e = .mk (.load place) place.type (knownAt c place) place.span ∧ d = c := by
  unfold readPlace at h
  dsimp only at h
  split at h
  · cases h
  · cases h
    exact ⟨rfl, rfl⟩

theorem folds_readPlace {place : Core.Place} {e : Core.Expr} (hc : Known origin c)
    (hplace : PlaceKnown c place) (h : readPlace place c = .ok e d) : Folds d e := by
  obtain ⟨rfl, rfl⟩ := readPlace_eq_ok h
  intro v hv
  have hknown : knownAt d place = some v := hv
  obtain ⟨hslot, hglobal⟩ := hplace
  unfold knownAt at hknown
  cases hkind : place.kind with
  | slot id =>
    rw [hkind] at hknown
    obtain ⟨hconstant, hvalue⟩ : (slotOf d id).constant ∧ (slotOf d id).value = some v := by
      simpa using hknown
    refine .node (hslot id hkind ▸ hc.locals id v hvalue) rfl (fun σ hσ => ?_) ?_
    · rw [Core.ExprKind.eval, Store.read, hkind, ← hslot id hkind]
      exact hσ.locals id v hconstant hvalue
    · obtain ⟨kind, type, constant, span⟩ := place
      cases hkind
      intro part hpart
      cases hpart
  | global id =>
    rw [hkind] at hknown
    obtain ⟨hconstant, hvalue⟩ : (d.global id).constant ∧ (d.global id).value = some v := by
      simpa using hknown
    obtain ⟨t, ht, -, hfits⟩ := hc.globals id v hvalue
    have htype := hglobal id v hkind hvalue
    rw [ht, Option.some.injEq] at htype
    subst htype
    refine .node hfits rfl (fun σ hσ => ?_) ?_
    · rw [Core.ExprKind.eval, Store.read, hkind]
      exact hσ.globals id v _ hconstant hvalue ht
    · obtain ⟨kind, type, constant, span⟩ := place
      cases hkind
      intro part hpart
      cases hpart
  | _ =>
    rw [hkind] at hknown
    cases hknown

/-- What is known of locals does not depend on which of them are moved. -/
theorem slotOf_moved (h : FrameMoved c d) (id : LocalId) :
    (slotOf d id).type = (slotOf c id).type ∧ (slotOf d id).constant = (slotOf c id).constant ∧
      (slotOf d id).value = (slotOf c id).value := by
  unfold FrameMoved at h
  unfold slotOf
  generalize c.frame = o at h ⊢
  generalize d.frame = o' at h ⊢
  cases h with
  | none => exact ⟨rfl, rfl, rfl⟩
  | some hf =>
    rw [Option.getD_some, Option.getD_some, hf.localAt id]
    exact ⟨rfl, rfl, rfl⟩

/-- What was known is still known. -/
theorem holds_of_later {σ : Store} (hc : Known c c) (hcd : Known c d) (hmoved : FrameMoved c d)
    (hσ : σ.Holds d) : σ.Holds c where
  locals id v hconstant hvalue := by
    obtain ⟨htype, hconstant', hvalue'⟩ := slotOf_moved hmoved id
    rw [← htype]
    exact hσ.locals id v (hconstant'.trans hconstant) (hvalue'.trans hvalue)
  globals id v t hconstant hvalue ht := by
    obtain ⟨t', ht', hstate, -⟩ := hc.globals id v hvalue
    have hkept := hcd.kept id (.inr ⟨hstate, by rw [ht']; rfl⟩)
    exact hσ.globals id v t (hkept ▸ hconstant) (hkept ▸ hvalue) (hkept ▸ ht)

/-! ## What checking remembers -/

/-- Only the globals and the facts of the locals matter. -/
theorem Known.of_eq (hc : Known origin c) (hglobals : d.globals = c.globals)
    (hlocals : ∀ id, (slotOf d id).value = (slotOf c id).value ∧
      (slotOf d id).type = (slotOf c id).type) : Known origin d where
  globals id v hv := by
    rw [global_of_eq hglobals] at hv ⊢
    exact hc.globals id v hv
  kept id hid := by
    rw [global_of_eq hglobals]
    exact hc.kept id hid
  locals id v hv := by
    rw [show ((d.frame.getD default).localAt id).type = (slotOf c id).type from (hlocals id).2]
    exact hc.locals id v ((hlocals id).1.symm.trans hv)

theorem Known.of_moved (hc : Known origin c) (hglobals : d.globals = c.globals)
    (hmoved : FrameMoved c d) : Known origin d :=
  hc.of_eq hglobals fun id => ⟨(slotOf_moved hmoved id).2.2, (slotOf_moved hmoved id).1⟩

/-- Without a frame there are no locals to know anything of. -/
theorem Known.withoutFrame (hc : Known origin c) {f : Option Frame}
    (hf : ∀ id, ((f.getD default).localAt id).value = none) : Known origin { c with frame := f } where
  globals := hc.globals
  kept := hc.kept
  locals id v hv := by
    rw [hf id] at hv
    cases hv

theorem localAt_default (id : LocalId) : ((default : Frame).localAt id).value = none := rfl

theorem known_detached {α : Type} {work : Check α} (h : work.Preserves (Known origin)) :
    (detached work).Preserves (Known origin) := by
  intro c d hd hc
  unfold detached at hd
  obtain ⟨e, hwork, rfl⟩ := Run.ends_andFinally hd
  have he := h hwork (hc.withoutFrame fun id => localAt_default id)
  exact ⟨he.globals, he.kept, hc.locals⟩

theorem known_consume (value : Core.Expr) : (consume value).Preserves (Known origin) := by
  intro c d hd hc
  have hglobals : d.globals = c.globals :=
    preserves_consume (P := fun d => d.globals = c.globals)
      (fun change => Run.preserves_modify fun d hd => hd) value hd rfl
  exact hc.of_moved hglobals (frameMoved_consume value hd (.refl c))

theorem localAt_modifyTop (f : Frame) (change : BlockFrame → BlockFrame) (id : LocalId) :
    (f.modifyTop change).localAt id = f.localAt id := by
  unfold Frame.modifyTop
  split <;> rfl

theorem known_declareLocal {name : Surface.Ident} {t : Ty} {constant : Bool} {value : Option Const}
    (hvalue : ∀ v, value = some v → v.Fits t.shape) :
    (declareLocal name t constant value).Preserves (Known origin) := by
  unfold declareLocal
  refine preserves_frame.bind fun f => ?_
  extract_lets +onlyGivenNames clash id added add
  clear_value clash
  have hadded : added.value = value ∧ added.type = t := ⟨rfl, rfl⟩
  clear_value added
  have hadd : (add ⟨⟩).Preserves (Known origin) := by
    refine (Run.preserves_modify fun c hc => ⟨hc.globals, hc.kept, fun other v hv => ?_⟩).bind
      fun _ => Run.preserves_pure _
    cases hframe : c.frame with
    | none =>
      simp only [hframe, Option.map_none, Option.getD_none] at hv
      cases hv
    | some g =>
      simp only [hframe, Option.map_some, Option.getD_some, localAt_modifyTop] at hv ⊢
      unfold Frame.localAt at hv ⊢
      rw [Array.getElem?_push] at hv ⊢
      split
      case isTrue hnew =>
        rw [if_pos hnew] at hv
        rw [Option.getD_some, hadded.2]
        exact hvalue v (hadded.1.symm.trans hv)
      case isFalse hnew =>
        rw [if_neg hnew] at hv
        have hold := hc.locals other v
        simp only [hframe, Option.getD_some] at hold
        exact hold hv
  split
  · exact (Run.preserves_fail _).bind fun _ => hadd
  · exact hadd

theorem known_additive : Additive (Known origin) where
  global c g pending hstate hvalue hc := by
    refine ⟨fun id v hv => ?_, fun id hid => ?_, hc.locals⟩
    · rw [global_push] at hv ⊢
      split at hv
      · rw [hvalue] at hv
        cases hv
      · rename_i hne
        rw [if_neg hne]
        exact hc.globals id v hv
    · have hkept := hc.kept id hid
      rw [global_push, if_neg ?_]
      · exact hkept
      · rw [← hkept] at hid
        exact hid.lt.ne
  struct _ _ _ _ hc := ⟨hc.globals, hc.kept, hc.locals⟩
  member _ _ _ hc := ⟨hc.globals, hc.kept, hc.locals⟩
  typeAlias _ _ _ hc := ⟨hc.globals, hc.kept, hc.locals⟩
  macroDef _ _ _ _ hc := ⟨hc.globals, hc.kept, hc.locals⟩

/-! ## Answers -/

/-- What an answer promises in the context that it leaves behind. -/
def Answered (d : Context) : (q : Query) → q.Answer → Prop
  | .value _ expected _, e => Folds d e ∧ ∀ t, expected = some t → e.type.same t
  | .denoted .., .value e => Folds d e
  | .denoted .., .place place => PlaceKnown d place
  | .global id _, t => ∀ v, (d.global id).value = some v → (d.global id).type = some t
  | _, _ => True

/-- Answers keep what is known, and promise what they should. -/
structure Faithful (ask : Asker) : Prop where
  keeps : ∀ origin q, (ask q).Preserves (Known origin)
  moves : ∀ origin (q : Query), q.isExpr → (ask q).Preserves (FrameMoved origin)
  sound : ∀ {c d : Context} {q : Query} {a : q.Answer}, Known c c → ask q c = .ok a d →
    Answered d q a

variable {ask : Asker}

theorem Faithful.value (ha : Faithful ask) {e : Surface.Expr} {expected : Option Ty} {scope : Scope}
    {value : Core.Expr} (hc : Known c c) (h : ask (.value e expected scope) c = .ok value d) :
    Folds d value ∧ ∀ t, expected = some t → value.type.same t := ha.sound hc h

theorem Known.self (h : Known origin c) : Known c c := ⟨h.globals, fun _ _ => rfl, h.locals⟩

theorem Faithful.known (ha : Faithful ask) {q : Query} (hc : Known c c) (h : (ask q).Ends c d) :
    Known c d := ha.keeps c q h hc

theorem known_stable (ha : Faithful ask) : Stable ask (Known origin) where
  answers q _ := ha.keeps origin q
  detached := known_detached
  consume := known_consume
  aliasStarted _ _ hc := ⟨hc.globals, hc.kept, hc.locals⟩
  aliasDone _ _ _ hc := ⟨hc.globals, hc.kept, hc.locals⟩
  structResolved := preserves_resolveStruct (fun q _ => ha.keeps origin q) known_detached
    (fun _ _ hc => ⟨hc.globals, hc.kept, hc.locals⟩) fun _ _ _ hc =>
      ⟨hc.globals, hc.kept, hc.locals⟩
  macroDone _ _ _ _ hc := ⟨hc.globals, hc.kept, hc.locals⟩
  instantiate := preserves_instantiate known_additive (fun q _ => ha.keeps origin q) known_detached
    (fun _ _ _ hc => ⟨hc.globals, hc.kept, hc.locals⟩) fun _ _ _ hc =>
      ⟨hc.globals, hc.kept, hc.locals⟩

theorem constantInitializer_fits (ha : Faithful ask) {e : Surface.Expr} {expected : Option Ty}
    {scope : Scope} {t : Ty} {v : Const} (hc : Known c c)
    (h : constantInitializer ask e expected scope c = .ok (t, v) d) :
    v.Fits t.shape ∧ ∀ u, expected = some u → t.same u := by
  unfold constantInitializer at h
  obtain ⟨checked, c₁, hvalue, h⟩ := Run.bind_eq_ok.mp h
  obtain ⟨hfolds, hsame⟩ := ha.value hc hvalue
  cases hconstant : checked.constant with
  | none =>
    rw [hconstant] at h
    cases h
  | some k =>
    rw [hconstant] at h
    cases h
    exact ⟨(hfolds _ hconstant).fits, hsame⟩

theorem variableType_fits (ha : Faithful ask) {decl : Surface.VarDecl} {scope : Scope} {t : Ty}
    {value : Option Const} (hc : Known c c)
    (h : variableType ask decl scope c = .ok (t, value) d) :
    ∀ v, value = some v → v.Fits t.shape := by
  have tail (t' : Ty) (value' : Option Const) :
      (do
        requireValueType t' decl.name.span
        ask.complete t' decl.name.span
        return (t', value') : Check (Ty × Option Const)).Returns (· = (t', value')) :=
    Run.returns_bind fun _ => Run.returns_bind fun _ => Run.returns_pure rfl
  unfold variableType at h
  obtain ⟨declared, c₁, hdeclared, hrest⟩ := Run.bind_eq_ok.mp h
  have hc₁ : Known c₁ c₁ :=
    (preserves_writtenType (known_stable ha).answers _ _ (Run.ends_of_ok hdeclared) hc).self
  dsimp only at hrest
  intro v hv
  subst hv
  cases hinit : decl.value with
  | none =>
    rw [hinit] at hrest
    cases declared with
    | none => cases hrest
    | some u => cases tail _ _ hrest
  | some e =>
    rw [hinit] at hrest
    obtain ⟨found, c₂, hfound, hrest⟩ := Run.bind_eq_ok.mp hrest
    obtain ⟨⟨u, k⟩, hconstant, rfl⟩ := Run.map_eq_ok.mp hfound
    obtain ⟨hfits, hsame⟩ := constantInitializer_fits ha hc₁ hconstant
    cases declared with
    | none =>
      cases tail _ _ hrest
      exact hfits
    | some u' =>
      cases tail _ _ hrest
      refine hfits.of_same ?_
      rw [← Ty.same_shape]
      exact hsame _ rfl

/-! ## Resolving a global -/

/-- A change of a global that is not settled yet, with a value that fits if it has one. -/
theorem Known.modifyGlobal (hc : Known origin c) {id : GlobalId} {change : Global → Global}
    (hid : ¬ Settled (origin.global id))
    (hvalue : ∀ v, (change (c.global id)).value = some v →
      (∃ t, (change (c.global id)).type = some t ∧ (change (c.global id)).state = .complete ∧
        v.Fits t.shape)) : Known origin (c.modifyGlobal id change) where
  globals other v hv := by
    rw [global_modifyGlobal] at hv ⊢
    split at hv
    case isTrue h =>
      have heq : id = other := by
        cases id
        cases other
        exact congrArg GlobalId.mk h.1
      subst heq
      rw [if_pos h]
      exact hvalue v hv
    case isFalse h =>
      rw [if_neg h]
      exact hc.globals other v hv
  kept other hother := by
    rw [global_modifyGlobal, if_neg ?_]
    · exact hc.kept other hother
    · rintro ⟨h, -⟩
      cases id
      cases other
      cases h
      exact hid hother
  locals := hc.locals

theorem Known.unsettled (hc : Known origin c) {id : GlobalId} (hid : ¬ Settled (c.global id)) :
    ¬ Settled (origin.global id) := fun h => by
  rw [← hc.kept id h] at h
  exact hid h

/-- A global that is not settled has no value, so nothing is forgotten when its resolution begins. -/
theorem Known.started (hc : Known origin c) {id : GlobalId} (hid : ¬ Settled (c.global id)) :
    Known origin (c.modifyGlobal id fun g => { g with state := .resolving }) := by
  refine hc.modifyGlobal (hc.unsettled hid) fun v hv => ?_
  obtain ⟨t, ht, hstate, -⟩ := hc.globals id v hv
  exact absurd (.inr ⟨hstate, by rw [ht]; rfl⟩) hid

/-- A global that is to be resolved gets a value that fits its type. -/
theorem resolved_fits (ha : Faithful ask) (hc : Known c c) {g : Global} {t : Ty}
    {value : Option Const}
    (h : (detached <| match g.kind with
      | .function decl owner => do return (← fnType ask decl owner g.scope, none)
      | .storage decl => variableType ask decl g.scope) c = .ok (t, value) d) :
    ∀ v, value = some v → v.Fits t.shape := by
  unfold detached at h
  obtain ⟨e, hwork, -⟩ := Run.andFinally_eq_ok.mp h
  cases hkind : g.kind with
  | function decl owner =>
    rw [hkind] at hwork
    obtain ⟨u, c₁, -, hreturn⟩ := Run.bind_eq_ok.mp hwork
    cases hreturn
    intro v hv
    cases hv
  | storage decl =>
    rw [hkind] at hwork
    exact variableType_fits ha (hc.withoutFrame (f := none) fun id => localAt_default id).self hwork

theorem known_resolveGlobal (ha : Faithful ask) (id : GlobalId) (usedAt : Span) :
    (resolveGlobal ask id usedAt).Preserves (Known origin) := by
  intro c d hd hc
  unfold resolveGlobal at hd
  replace hd := Run.ends_get_bind hd
  dsimp only at hd
  split at hd
  case h_1 => exact Run.preserves_pure _ hd hc
  case h_2 => exact Run.preserves_reject _ _ hd hc
  case h_3 hresolving hcomplete =>
    have hunsettled : ¬ Settled (c.global id) := by
      rintro (hstate | ⟨hstate, htype⟩)
      · exact hresolving hstate
      · obtain ⟨t, ht⟩ := Option.isSome_iff_exists.mp htype
        exact hcomplete t hstate ht
    have hid := hc.unsettled hunsettled
    have hstarted := hc.started hunsettled
    replace hd := Run.ends_modify_bind hd
    have hkeeps : Run.Preserves (Known origin) (detached <| match (c.global id).kind with
        | .function decl owner => do return (← fnType ask decl owner (c.global id).scope, none)
        | .storage decl => variableType ask decl (c.global id).scope) := by
      refine known_detached ?_
      split
      · exact (preserves_fnType (known_stable ha) _ _ _).bind fun _ => Run.preserves_pure _
      · exact preserves_variableType (known_stable ha) _ _
    obtain hend | ⟨⟨t, value⟩, c₂, hwork, hend⟩ := Run.ends_bind hd
    · exact hkeeps hend hstarted
    · have hfits := resolved_fits ha hstarted.self hwork
      have hreturn := Run.ends_modify_bind hend
      refine Run.preserves_pure _ hreturn ?_
      refine (hkeeps (Run.ends_of_ok hwork) hstarted).modifyGlobal hid fun v hv => ?_
      exact ⟨t, rfl, rfl, hfits v hv⟩

theorem answered_completed {start : Context → Context} {work : Check (Ty × Option Const)}
    {id : GlobalId} {t : Ty}
    (h : (do
      modify start
      let (t, value) ← work
      modify (·.modifyGlobal id fun g => { g with type := some t, value, state := .complete })
      return t : Check Ty) c = .ok t d) :
    ∀ v, (d.global id).value = some v → (d.global id).type = some t := by
  obtain ⟨_, c₁, -, hwork⟩ := Run.bind_eq_ok.mp h
  obtain ⟨⟨u, value⟩, c₂, -, hmodify⟩ := Run.bind_eq_ok.mp hwork
  obtain ⟨_, c₃, hchange, hreturn⟩ := Run.bind_eq_ok.mp hmodify
  cases hchange
  cases hreturn
  intro v hv
  rw [global_modifyGlobal] at hv ⊢
  split at hv
  case isTrue hin => rw [if_pos hin]
  case isFalse hout =>
    have hdefault : c₂.global id = default := by
      unfold Context.global
      rw [Array.getElem?_eq_none (by simpa using hout)]
      rfl
    rw [hdefault] at hv
    cases hv

theorem answered_resolveGlobal {id : GlobalId} {usedAt : Span} {t : Ty}
    (h : resolveGlobal ask id usedAt c = .ok t d) :
    ∀ v, (d.global id).value = some v → (d.global id).type = some t := by
  unfold resolveGlobal at h
  obtain ⟨_, _, hget, hrest⟩ := Run.bind_eq_ok.mp h
  cases hget
  dsimp only at hrest
  cases hstate : (c.global id).state with
  | resolving =>
    simp only [hstate] at hrest
    cases hrest
  | declared =>
    simp only [hstate] at hrest
    exact answered_completed hrest
  | complete =>
    cases htype : (c.global id).type with
    | none =>
      simp only [hstate, htype] at hrest
      exact answered_completed hrest
    | some u =>
      simp only [hstate, htype] at hrest
      cases hrest
      exact fun _ _ => htype

/-! ## Values of which nothing is known -/

section Computed

/-- What an expression denotes that is no variable and of which nothing is known. -/
def Anonymous : Denoted → Prop
  | .value e => e.constant = none
  | .place place => (∀ id, place.kind ≠ .slot id) ∧ ∀ id, place.kind ≠ .global id

theorem Anonymous.answered {denoted : Denoted} (h : Anonymous denoted) (e : Surface.Expr)
    (write : Bool) (scope : Scope) : Answered d (.denoted e write scope) denoted := by
  cases denoted with
  | value e => exact .of_none h
  | place place => exact ⟨fun id hid => absurd hid (h.1 id), fun id v hid => absurd hid (h.2 id)⟩

variable (callee : Core.Expr) (receiver : List Core.Expr) (args : List Surface.Expr)
  (base : Surface.Expr) (member : Surface.Ident) (t : Surface.TypeExpr) (heap : Bool) (span : Span)
  (scope : Scope)

theorem callOf_computed :
    (callOf ask callee receiver args span scope).Returns (·.constant = none) := by
  unfold callOf
  split
  · exact Run.returns_bind fun _ => Run.returns_bind fun _ => Run.returns_pure rfl
  · exact Run.returns_reject _ _

theorem callValue_computed (callee : Surface.Expr) :
    (callValue ask callee args span scope).Returns (·.constant = none) := by
  unfold callValue
  split
  · refine Run.returns_bind fun _ => Run.returns_bind fun kind => ?_
    split
    · exact Run.returns_bind fun _ => Run.returns_bind fun _ => callOf_computed _ _ _ _ _
    · exact Run.returns_bind fun _ => callOf_computed _ _ _ _ _
    · exact Run.returns_bind fun _ => callOf_computed _ _ _ _ _
  · exact Run.returns_bind fun _ => callOf_computed _ _ _ _ _

theorem macroValue_computed (path : List Surface.Ident) :
    (macroValue ask path args span scope).Returns (·.constant = none) :=
  Run.returns_bind fun _ => Run.returns_bind fun _ => .unless <| Run.returns_bind fun _ =>
    Run.returns_bind fun _ => Run.returns_pure rfl

theorem referenceValue_computed (constant : Bool) :
    (referenceValue ask base constant span scope).Returns (·.constant = none) :=
  Run.returns_bind fun _ => Run.returns_pure rfl

theorem sharedValue_computed : (sharedValue ask base span scope).Returns (·.constant = none) := by
  refine Run.returns_bind fun value => ?_
  split
  · exact Run.returns_pure rfl
  · exact Run.returns_reject _ _

theorem newValue_computed : (newValue ask t base span scope).Returns (·.constant = none) :=
  Run.returns_bind fun _ => .unless <| Run.returns_bind fun _ => Run.returns_bind fun _ =>
    Run.returns_pure rfl

theorem structValue_computed (fields : List (Surface.Ident × Surface.Expr)) :
    (structValue ask t fields heap span scope).Returns (·.constant = none) := by
  refine Run.returns_bind fun target => ?_
  split
  · exact Run.returns_reject _ _
  · exact Run.returns_bind fun _ => Run.returns_bind fun _ => Run.returns_bind fun _ =>
      Run.returns_bind fun _ => Run.returns_pure rfl

theorem arrayValue_computed :
    (arrayValue ask t args heap span scope).Returns (·.constant = none) :=
  Run.returns_bind fun _ => Run.returns_bind fun _ => Run.returns_pure rfl

theorem filledValue_computed (size : Surface.Expr) :
    (filledValue ask t size base heap span scope).Returns (·.constant = none) :=
  Run.returns_bind fun _ => .unless <| Run.returns_bind fun _ => Run.returns_bind fun _ =>
    Run.returns_bind fun _ => .unless <| Run.returns_pure rfl

theorem pointeePlace_anonymous (pointer : Surface.Expr) :
    (pointeePlace ask pointer span scope).Returns fun place => Anonymous (.place place) := by
  refine Run.returns_bind fun value => ?_
  split
  · exact Run.returns_reject _ _
  · exact .unless <| Run.returns_bind fun _ =>
      Run.returns_pure ⟨fun _ h => (nomatch h), fun _ h => (nomatch h)⟩

theorem elementPlace_anonymous (index : Surface.Expr) :
    (elementPlace ask base index span scope).Returns fun place => Anonymous (.place place) :=
  Run.returns_bind fun _ => Run.returns_bind fun _ => Run.returns_bind fun _ =>
    Run.returns_pure ⟨fun _ h => (nomatch h), fun _ h => (nomatch h)⟩

theorem memberDenoted_anonymous :
    (memberDenoted ask base member span scope).Returns Anonymous := by
  refine Run.returns_bind fun _ => Run.returns_bind fun kind => ?_
  split
  · refine Run.returns_bind fun field => ?_
    split
    · exact Run.returns_pure ⟨fun _ h => (nomatch h), fun _ h => (nomatch h)⟩
    · exact Run.returns_pure rfl
  · exact Run.returns_bind fun _ => Run.returns_pure rfl
  · exact Run.returns_reject _ _

end Computed

/-! ## Values of which something is known -/

theorem folds_ofConst_bool {b : Bool} {span : Span} :
    Folds c (.ofConst (.bool b) Shape.bool.plain (.bool b) span) := by
  intro v hv
  cases hv
  exact .node trivial rfl (fun σ _ => rfl) fun part hpart => by cases hpart

theorem folds_ofConst_text {text : String} {span : Span} :
    Folds c (.ofConst (.str text) Shape.string.plain (.str text) span) := by
  intro v hv
  cases hv
  exact .node trivial rfl (fun σ _ => rfl) fun part hpart => by cases hpart

/-- The type of a number is one of integers. -/
theorem intHint_shape (expected : Option Ty) :
    ∃ width, ((intHint expected).getD Shape.i32.plain).shape = .int width := by
  unfold intHint
  cases expected with
  | none => exact ⟨.w32, rfl⟩
  | some t =>
    rw [Option.filter_some]
    split
    case isFalse => exact ⟨.w32, rfl⟩
    case isTrue hint =>
      cases hshape : t.shape with
      | int width => exact ⟨width, hshape⟩
      | _ =>
        rw [hshape] at hint
        cases hint

theorem folds_numberLiteral {n : Int} {expected : Option Ty} {span : Span} {e : Core.Expr}
    (h : numberLiteral n expected span c = .ok e d) : Folds d e := by
  obtain ⟨hliteral, -⟩ := Run.ofExcept_eq_ok.mp h
  obtain ⟨width, hshape⟩ := intHint_shape expected
  rw [hshape] at hliteral
  exact (folded_literal hshape hliteral).1

theorem folds_unaryValue (ha : Faithful ask) {op : Surface.UnaryOp} {operand : Surface.Expr}
    {expected : Option Ty} {span : Span} {scope : Scope} {e : Core.Expr} (hc : Known c c)
    (h : unaryValue ask op operand expected span scope c = .ok e d) : Folds d e := by
  have hgeneral (hint : Option Ty) (h : (do
      let value ← ask (.value operand hint scope)
      let constant ← foldUnary op value span
      return .mk (.unary op value) value.type constant span : Check Core.Expr) c = .ok e d) :
      Folds d e := by
    obtain ⟨value, c₁, hvalue, hfold⟩ := Run.bind_eq_ok.mp h
    obtain ⟨constant, c₂, hconstant, hreturn⟩ := Run.bind_eq_ok.mp hfold
    cases hreturn
    have hsame : d = c₁ :=
      preserves_foldUnary (P := (· = c₁)) op value span (Run.ends_of_ok hconstant) rfl
    subst hsame
    exact folds_unary (ha.value hc hvalue).1 hconstant
  unfold unaryValue at h
  cases op with
  | neg =>
    cases hkind : operand.kind with
    | number n =>
      simp only [hkind] at h
      exact folds_numberLiteral h
    | _ =>
      simp only [hkind] at h
      exact hgeneral _ h
  | not => exact hgeneral _ h

/-- What is folded stays folded while other expressions are checked. -/
theorem Faithful.folds (ha : Faithful ask) {q : Query} (hq : q.isExpr) {e : Core.Expr}
    (hc : Known c c) (h : (ask q).Ends c d) (he : Folds c e) : Folds d e :=
  he.mono fun _ hσ => holds_of_later hc (ha.known hc h) (ha.moves c q hq h (.refl c)) hσ

theorem folds_logicalValue (ha : Faithful ask) {op : Surface.BinaryOp} {left right : Surface.Expr}
    {span : Span} {scope : Scope} {e : Core.Expr} (hop : op.isLogical) (hc : Known c c)
    (h : logicalValue ask op left right span scope c = .ok e d) : Folds d e := by
  obtain ⟨a, c₁, hleft, hrest⟩ := Run.bind_eq_ok.mp h
  obtain ⟨b, c₂, hright, hreturn⟩ := Run.bind_eq_ok.mp hrest
  cases hreturn
  have hc₁ := (ha.known hc (Run.ends_of_ok hleft)).self
  exact folds_logical hop (ha.folds rfl hc₁ (Run.ends_of_ok hright) (ha.value hc hleft).1)
    (ha.value hc₁ hright).1

theorem folds_operandValues (ha : Faithful ask) {left right : Surface.Expr} {hint : Option Ty}
    {scope : Scope} {a b : Core.Expr} (hc : Known c c)
    (h : operandValues ask left right hint scope c = .ok (a, b) d) :
    Folds d a ∧ Folds d b ∧ b.type.same a.type := by
  unfold operandValues at h
  split at h
  · obtain ⟨b', c₁, hright, hrest⟩ := Run.bind_eq_ok.mp h
    obtain ⟨a', c₂, hleft, hrest⟩ := Run.bind_eq_ok.mp hrest
    obtain ⟨b'', c₃, hcoerce, hreturn⟩ := Run.bind_eq_ok.mp hrest
    obtain ⟨hconverted, rfl⟩ := Run.ofExcept_eq_ok.mp hcoerce
    cases hreturn
    have hc₁ := (ha.known hc (Run.ends_of_ok hright)).self
    obtain ⟨hb, hsame⟩ :=
      folds_coerce (ha.folds rfl hc₁ (Run.ends_of_ok hleft) (ha.value hc hright).1) hconverted
    exact ⟨(ha.value hc₁ hleft).1, hb, hsame⟩
  · obtain ⟨a', c₁, hleft, hrest⟩ := Run.bind_eq_ok.mp h
    obtain ⟨b', c₂, hright, hreturn⟩ := Run.bind_eq_ok.mp hrest
    cases hreturn
    have hc₁ := (ha.known hc (Run.ends_of_ok hleft)).self
    obtain ⟨hb, hsame⟩ := ha.value hc₁ hright
    exact ⟨ha.folds rfl hc₁ (Run.ends_of_ok hright) (ha.value hc hleft).1, hb, hsame _ rfl⟩

theorem requireFit_eq_ok {constant : Option Const} {t : Ty} {span : Span}
    (h : requireFit constant t span c = .ok () d) {n : Int} {width : Width}
    (hn : constant = some (.int n)) (ht : t.shape = .int width) : intFits n width.bits := by
  subst hn
  unfold requireFit at h
  simp only [ht] at h
  split at h
  · assumption
  · cases h

theorem folds_binaryValue (ha : Faithful ask) {op : Surface.BinaryOp} {left right : Surface.Expr}
    {expected : Option Ty} {span : Span} {scope : Scope} {e : Core.Expr} (hc : Known c c)
    (h : binaryValue ask op left right expected span scope c = .ok e d) : Folds d e := by
  unfold binaryValue at h
  obtain ⟨⟨a, b⟩, c₁, hoperands, hrest⟩ := Run.bind_eq_ok.mp h
  obtain ⟨hfolds, hfolds', hsame⟩ := folds_operandValues ha hc hoperands
  dsimp only at hrest
  split at hrest
  · cases hrest
  · obtain ⟨_, c₂, hfit, hreturn⟩ := Run.bind_eq_ok.mp hrest
    cases hreturn
    obtain rfl : d = c₁ :=
      preserves_requireFit (P := (· = c₁)) _ _ _ (Run.ends_of_ok hfit) rfl
    exact folds_binary rfl hsame hfolds hfolds' fun n width hn ht => requireFit_eq_ok hfit hn ht

theorem slotPlace_eq_ok {id : LocalId} {write : Bool} {span : Span} {place : Core.Place}
    (h : slotPlace id write span c = .ok place d) :
    d = c ∧ place = .mk (.slot id) (slotOf c id).type (slotOf c id).constant span := by
  unfold slotPlace at h
  obtain ⟨_, _, hframe, hrest⟩ := Run.bind_eq_ok.mp h
  cases hframe
  cases hownership : (slotOf c id).ownership <;> cases write <;>
    simp only [slotOf] at hownership <;> simp only [hownership] at hrest <;> cases hrest <;>
    exact ⟨rfl, rfl⟩

theorem answered_slotPlace {id : LocalId} {write : Bool} {span : Span} {place : Core.Place}
    (h : slotPlace id write span c = .ok place d) : PlaceKnown d place := by
  obtain ⟨rfl, rfl⟩ := slotPlace_eq_ok h
  refine ⟨fun other hother => ?_, fun _ _ hid => by cases hid⟩
  cases hother
  rfl

theorem answered_pathDenoted (ha : Faithful ask) {path : List Surface.Ident}
    {args : List Surface.TypeExpr} {write : Bool} {span : Span} {scope : Scope} {denoted : Denoted}
    (hc : Known c c) (h : pathDenoted ask path args write span scope c = .ok denoted d)
    (e : Surface.Expr) : Answered d (.denoted e write scope) denoted := by
  unfold pathDenoted at h
  obtain ⟨referent, c₁, hpath, hrest⟩ := Run.bind_eq_ok.mp h
  have hc₁ := (preserves_resolvePath (known_stable ha) _ _ _ (Run.ends_of_ok hpath) hc).self
  cases referent with
  | slot id =>
    obtain ⟨place, c₂, hslot, hreturn⟩ := Run.bind_eq_ok.mp hrest
    cases hreturn
    exact answered_slotPlace hslot
  | global id =>
    unfold globalDenoted at hrest
    obtain ⟨t, c₂, hglobal, hrest⟩ := Run.bind_eq_ok.mp hrest
    obtain ⟨_, _, hget, hreturn⟩ := Run.bind_eq_ok.mp hrest
    cases hget
    split at hreturn
    · cases hreturn
      exact .of_none rfl
    · cases hreturn
      have htype := ha.sound hc₁ hglobal
      refine ⟨fun _ hid => (by cases hid), fun other v hother hv => ?_⟩
      cases hother
      exact htype v hv
  | field this id index =>
    obtain ⟨place, c₂, hfield, hreturn⟩ := Run.bind_eq_ok.mp hrest
    cases hreturn
    unfold ownFieldPlace at hfield
    obtain ⟨_, _, -, hfield⟩ := Run.bind_eq_ok.mp hfield
    obtain ⟨_, _, -, hfield⟩ := Run.bind_eq_ok.mp hfield
    cases hfield
    exact ⟨fun _ hid => (by cases hid), fun _ _ hid => (by cases hid)⟩

theorem folds_rawValue (ha : Faithful ask) {e : Surface.Expr} {expected : Option Ty}
    {scope : Scope} {value : Core.Expr} (hc : Known c c)
    (h : rawValue ask e expected scope c = .ok value d) : Folds d value := by
  have hplace (h : (do readDenoted (← ask (.denoted e false scope)) : Check Core.Expr) c =
      .ok value d) : Folds d value := by
    obtain ⟨denoted, c₁, hdenoted, hread⟩ := Run.bind_eq_ok.mp h
    have hanswer := ha.sound hc hdenoted
    cases denoted with
    | value v =>
      cases hread
      exact hanswer
    | place place => exact folds_readPlace (ha.known hc (Run.ends_of_ok hdenoted)) hanswer hread
  unfold rawValue at h
  cases hkind : e.kind <;> simp only [hkind] at h
  case number => exact folds_numberLiteral h
  case bool =>
    cases h
    exact folds_ofConst_bool
  case str =>
    cases h
    exact folds_ofConst_text
  case call => exact .of_none (callValue_computed _ _ _ _ h)
  case macroCall => exact .of_none (macroValue_computed _ _ _ _ h)
  case binary op left right =>
    split at h
    · exact folds_logicalValue ha ‹_› hc h
    · exact folds_binaryValue ha hc h
  case unary => exact folds_unaryValue ha hc h
  case ref => exact .of_none (referenceValue_computed _ _ _ _ h)
  case share => exact .of_none (sharedValue_computed _ _ _ h)
  case new => exact .of_none (newValue_computed _ _ _ _ h)
  case structInit => exact .of_none (structValue_computed _ _ _ _ _ h)
  case arrayInit => exact .of_none (arrayValue_computed _ _ _ _ _ h)
  case arrayFill => exact .of_none (filledValue_computed _ _ _ _ _ _ h)
  all_goals exact hplace h

theorem answered_checkDenoted (ha : Faithful ask) {e : Surface.Expr} {write : Bool} {scope : Scope}
    {denoted : Denoted} (hc : Known c c) (h : checkDenoted ask e write scope c = .ok denoted d) :
    Answered d (.denoted e write scope) denoted := by
  unfold checkDenoted at h
  cases hkind : e.kind <;> simp only [hkind] at h
  case path => exact answered_pathDenoted ha hc h e
  case deref =>
    obtain ⟨place, c₁, hplace, hreturn⟩ := Run.bind_eq_ok.mp h
    cases hreturn
    exact (pointeePlace_anonymous _ _ _ hplace).answered e write scope
  case index =>
    obtain ⟨place, c₁, hplace, hreturn⟩ := Run.bind_eq_ok.mp h
    cases hreturn
    exact (elementPlace_anonymous _ _ _ _ hplace).answered e write scope
  case member => exact (memberDenoted_anonymous _ _ _ _ h).answered e write scope
  all_goals
    obtain ⟨value, c₁, hvalue, hreturn⟩ := Run.bind_eq_ok.mp h
    cases hreturn
    exact folds_rawValue ha hc hvalue

theorem answered_checkValue (ha : Faithful ask) {e : Surface.Expr} {expected : Option Ty}
    {scope : Scope} {value : Core.Expr} (hc : Known c c)
    (h : checkValue ask e expected scope c = .ok value d) :
    Folds d value ∧ ∀ t, expected = some t → value.type.same t := by
  unfold checkValue at h
  obtain ⟨raw, c₁, hraw, hrest⟩ := Run.bind_eq_ok.mp h
  have hfolds := folds_rawValue ha hc hraw
  dsimp only at hrest
  split at hrest
  · cases hrest
  · cases expected with
    | none =>
      cases hrest
      exact ⟨hfolds, fun t ht => by cases ht⟩
    | some t =>
      obtain ⟨hcoerce, rfl⟩ := Run.ofExcept_eq_ok.mp hrest
      obtain ⟨hfolds', hsame⟩ := folds_coerce hfolds hcoerce
      refine ⟨hfolds', fun u hu => ?_⟩
      cases hu
      exact hsame

/-! ## Every answer -/

/-- The declaration of a local keeps what the values before it keep, and a new local whose value fits its
type. -/
theorem preserves_declStmt_of_fits {P : Context → Prop} (ha : Faithful ask)
    (h : Following (.keeping P) ask ask) (hknown : ∀ c, P c → Known c c)
    (hlocal : ∀ name t constant value, (∀ v, value = some v → v.Fits t.shape) →
      (declareLocal name t constant value).Preserves P)
    (decl : Surface.VarDecl) (scope : Scope) : (declStmt ask decl scope).Preserves P := by
  have hanswers (q : Query) (hq : q.isExpr) : (ask q).Preserves P := (h.answers q hq).preserves
  unfold declStmt
  refine .bind (preserves_writtenType hanswers _ _) fun declared => ?_
  extract_lets +onlyGivenNames missing withValue
  have hvalue (value : Option Core.Expr) (hgood : ∀ e v, value = some e → e.constant = some v →
      v.Fits e.type.shape ∧ ∀ t, declared = some t → e.type.same t) :
      (withValue value).Preserves P := by
    dsimp -zeta only [withValue]
    extract_lets +onlyGivenNames known withType
    have hknown (v) (hv : known = some v) : ∃ e, value = some e ∧ e.constant = some v := by
      dsimp only [known] at hv
      split at hv
      · exact Option.bind_eq_some_iff.mp hv
      · cases hv
    have htype (t) (ht : ∀ v, known = some v → v.Fits t.shape) :
        (withType t).Preserves P := by
      refine (preserves_requireValueType _ _).bind fun _ =>
        (preserves_complete hanswers _ _).bind fun _ => ?_
      extract_lets +onlyGivenNames declare
      have hdeclare (u) : (declare u).Preserves P :=
        (hlocal _ _ _ _ ht).bind fun _ => Run.preserves_pure _
      split
      · exact (h.consume _).preserves.bind hdeclare
      · exact .unless (hdeclare ⟨⟩)
    split
    · refine htype _ fun v hv => ?_
      obtain ⟨e, he, hconstant⟩ := hknown v hv
      obtain ⟨hfits, hsame⟩ := hgood e v he hconstant
      refine hfits.of_same ?_
      rw [← Ty.same_shape]
      exact hsame _ rfl
    · refine htype _ fun v hv => ?_
      obtain ⟨e, he, hconstant⟩ := hknown v hv
      cases he
      exact (hgood _ v rfl hconstant).1
    · exact Run.preserves_reject_bind _ _ _
  split
  · exact hvalue none fun e v he => by cases he
  · intro c d hd hc
    obtain hend | ⟨value, c₁, hsome, hend⟩ := Run.ends_bind hd
    · exact (hanswers _ rfl).map _ hend hc
    · obtain ⟨e, he, rfl⟩ := Run.map_eq_ok.mp hsome
      refine hvalue (some e) (fun e' v he' hconstant => ?_) hend
        (hanswers _ rfl (Run.ends_of_ok he) hc)
      cases he'
      obtain ⟨hfolds, hsame⟩ := ha.value (hknown c hc) he
      exact ⟨(hfolds v hconstant).fits, hsame⟩

theorem known_declStmt (ha : Faithful ask) (decl : Surface.VarDecl) (scope : Scope) :
    (declStmt ask decl scope).Preserves (Known origin) :=
  preserves_declStmt_of_fits ha (known_stable ha).following (fun _ hc => hc.self)
    (fun _ _ _ _ => known_declareLocal) decl scope

/-- The facts of a frame are what is known of its locals. -/
theorem slotOf_facts (h : d.frame.map Frame.facts = c.frame.map Frame.facts) (id : LocalId) :
    (slotOf d id).value = (slotOf c id).value ∧ (slotOf d id).type = (slotOf c id).type := by
  unfold slotOf
  cases hc : c.frame with
  | none =>
    cases hd : d.frame with
    | none => exact ⟨rfl, rfl⟩
    | some g => simp [hc, hd] at h
  | some f =>
    cases hd : d.frame with
    | none => simp [hc, hd] at h
    | some g =>
      rw [hc, hd, Option.map_some, Option.map_some, Option.some.injEq] at h
      have hid := congrArg (·[id.index]?) h
      simp only [Frame.facts, Array.getElem?_map] at hid
      simp only [Option.getD_some, Frame.localAt]
      cases hf : f.locals[id.index]? <;> cases hg : g.locals[id.index]? <;> simp_all

theorem known_invariant (ha : Faithful ask) : Invariant ask (Known origin) where
  toStable := known_stable ha
  everyAnswer := ha.keeps origin
  agrees c d h hc := hc.of_eq h.globals (slotOf_facts h.facts)
  bodyOpened c f hf hc := hc.withoutFrame fun id => by
    simp [Frame.localAt, hf]
    rfl
  bodyClosed c hc := hc.withoutFrame fun id => localAt_default id
  param _ _ := known_declareLocal fun v hv => by cases hv
  receiver _ _ := known_declareLocal fun v hv => by cases hv
  declared := known_declStmt ha

theorem known_lasting (ha : Faithful ask) : Lasting ask (Known origin) where
  toInvariant := known_invariant ha
  packages _ _ hc := ⟨hc.globals, hc.kept, hc.locals⟩
  entityDeclared := preserves_declareEntity known_additive
  templateDeclared _ := preserves_declareTemplate (fun _ _ hc => ⟨hc.globals, hc.kept, hc.locals⟩)
    fun _ _ _ hc => ⟨hc.globals, hc.kept, hc.locals⟩
  bodyTaken _ _ _ _ hc := ⟨hc.globals, hc.kept, hc.locals⟩
  bodyAccepted _ _ _ _ _ _ hd := ⟨hd.globals, hd.kept, hd.locals⟩

/-- One step of nesting. -/
theorem Faithful.step (ha : Faithful ask) : Faithful (step ask) where
  keeps origin q := (known_invariant ha).step (known_resolveGlobal ha) q
  moves origin q hq := by
    have hstable := frameMoved_stable (ha.moves origin)
    exact hstable.step
      (preserves_resolveGlobal hstable (fun _ _ hc => hc) fun _ _ _ _ hc => hc) q hq
  sound {c d q a} hc h := by
    cases q with
    | value e expected scope => exact answered_checkValue ha hc h
    | denoted e write scope => exact answered_checkDenoted ha hc h
    | global id usedAt => exact answered_resolveGlobal h
    | _ => trivial

theorem faithful_answerTo (n : Nat) : Faithful (answerTo n) := by
  induction n with
  | zero =>
    refine ⟨fun _ _ => Run.preserves_stop _, fun _ _ _ => Run.preserves_stop _, fun _ h => ?_⟩
    cases h
  | succ n ih => exact ih.step

theorem faithful_answer : Faithful answer := faithful_answerTo nestingBound

end Check

namespace Session

open Check (answer)

/-- The contexts that checking goes through: those of sessions, and those inside of bodies, of
initializers and of types. -/
inductive Point : Context → Prop where
  | session {c : Context} (h : Reachable c) : Point c
  | query {c d : Context} (q : Query) (h : Point c) (hd : (answer q).Ends c d) : Point d
  | declared {c d : Context} (kind : Surface.ItemKind) (scope : Scope)
      (names : Option InstanceNames) (h : Point c)
      (hd : (Check.declareEntity kind scope names).Ends c d) : Point d
  /-- The type and the value of a global are being resolved. -/
  | started {c : Context} (id : GlobalId) (h : Point c) (hid : ¬ Check.Settled (c.global id)) :
      Point (c.modifyGlobal id fun g => { g with state := .resolving })
  | detached {c : Context} (h : Point c) : Point { c with frame := none }
  | body {c : Context} (f : Frame) (h : Point c) (hf : f.locals = #[]) :
      Point { c with frame := some f }
  | param {c d : Context} (name : Surface.Ident) (t : Ty) (constant : Bool) (h : Point c)
      (hd : (Check.declareLocal name t constant none).Ends c d) : Point d
  /-- Control moves on, locals are moved, and entities other than globals are resolved. -/
  | moved {c d : Context} (h : Point c) (globals : d.globals = c.globals)
      (facts : d.frame.map Frame.facts = c.frame.map Frame.facts) : Point d

variable {c d : Context}

theorem Later.known (hcd : Later c d) (hc : Check.Known c c) : Check.Known d d :=
  (hcd.keeps (Check.known_lasting Check.faithful_answer) hc).self

theorem Point.known (h : Point c) : Check.Known c c := by
  induction h with
  | session h =>
    obtain ⟨options, hlater⟩ := h
    refine hlater.known ⟨fun id v hv => ?_, fun _ _ => rfl, fun id v hv => ?_⟩
    · cases hv
    · cases hv
  | query q _ hd ih => exact (Check.faithful_answer.known ih hd).self
  | declared kind scope names _ hd ih =>
    exact (Check.preserves_declareEntity Check.known_additive _ _ _ hd ih).self
  | started id _ hid ih =>
    refine (ih.modifyGlobal hid fun v hv => ?_).self
    obtain ⟨t, ht, hstate, -⟩ := ih.globals id v hv
    exact absurd (.inr ⟨hstate, by rw [ht]; rfl⟩) hid
  | detached _ ih => exact (ih.withoutFrame (f := none) fun id => Check.localAt_default id).self
  | body f _ hf ih =>
    refine (ih.withoutFrame fun id => ?_).self
    rw [Option.getD_some, Frame.localAt, hf]
    rfl
  | param name t constant _ hd ih =>
    exact (Check.known_declareLocal (fun v hv => by cases hv) hd ih).self
  | moved _ hglobals hfacts ih => exact (ih.of_eq hglobals (Check.slotOf_facts hfacts)).self

/-- Constants are sound. Wherever an expression is accepted with an integer or boolean type and a
known value, the value is one of the type, and it is what the checked tree evaluates to in every
store that holds the known values of constant variables. No part of a tree of known value calls or
allocates, and every part has a value, so none divides by zero. -/
theorem folding_sound (hc : Point c) {e : Surface.Expr} {expected : Option Ty} {scope : Scope}
    {typed : Core.Expr} {v : Const} (h : answer (.value e expected scope) c = .ok typed d)
    (hv : typed.constant = some v) :
    (∀ width, typed.type.shape = .int width →
      ∃ n, v = .int n ∧ -2 ^ (width.bits - 1) ≤ n ∧ n < 2 ^ (width.bits - 1) ∧
        ∀ σ : Store, σ.Holds d → ∃ bits, typed.eval σ = some (.int width bits) ∧ bits.toInt = n) ∧
    (typed.type.shape = .bool →
      ∃ b, v = .bool b ∧ ∀ σ : Store, σ.Holds d → typed.eval σ = some (.bool b)) ∧
    ∀ part ∈ typed.parts,
      part.isEffect = false ∧ ∀ σ : Store, σ.Holds d → (part.eval σ).isSome := by
  have hfolded := (Check.faithful_answer.value hc.known h).1 v hv
  refine ⟨fun width hshape => ?_, fun hshape => ?_, hfolded.parts⟩
  · have hfits := hfolded.fits
    rw [hshape] at hfits
    obtain ⟨n, rfl⟩ := Const.fits_int hfits
    refine ⟨n, rfl, hfits.1, hfits.2, fun σ hσ => ⟨BitVec.ofInt width.bits n, ?_, ?_⟩⟩
    · rw [hfolded.value σ hσ, hshape]
      rfl
    · exact toInt_ofInt_of_fits hfits
  · have hfits := hfolded.fits
    rw [hshape] at hfits
    obtain ⟨b, rfl⟩ := Const.fits_bool hfits
    refine ⟨b, rfl, fun σ hσ => ?_⟩
    rw [hfolded.value σ hσ]
    rfl

/-- The store that holds what a context knows, and nothing else. -/
def storeOf (c : Context) : Store where
  locals id := (Check.slotOf c id).value.bind (·.value? (Check.slotOf c id).type.shape)
  globals id := (c.global id).value.bind fun v => (c.global id).type.bind fun t => v.value? t.shape

theorem storeOf_holds (c : Context) : (storeOf c).Holds c where
  locals id v _ hv := by
    simp only [storeOf, hv, Option.bind_some]
  globals id v t _ hv ht := by
    simp only [storeOf, hv, ht, Option.bind_some]

/-- `const limit: i8 = 120;` -/
def limitModule : Surface.Module :=
  let limit : Surface.VarDecl :=
    { name := ⟨"limit", .null⟩, constant := true
      type := some (.mk (.named [⟨"i8", .null⟩] []) .null), value := some (.mk (.number 120) .null) }
  { file := "limit.own", package := ⟨"limit", .null⟩, imports := []
    items := [⟨.global limit, [], .null⟩] }

/-- `limit + 7` -/
def limitSum : Query :=
  .value (.mk (.binary .add (.mk (.path [⟨"limit", .null⟩] []) .null) (.mk (.number 7) .null)) .null)
    none { package := ⟨0⟩, imports := [], bindings := [] }

/-- The sum is known to be the largest number that 8 bits hold, and it evaluates to that. -/
theorem folding_sound_limit :
    ∃ c d typed, Point c ∧ answer limitSum c = .ok typed d ∧ typed.constant = some (.int 127) ∧
      ∃ bits : BitVec 8, typed.eval (storeOf d) = some (.int .w8 bits) ∧ bits.toInt = 127 := by
  have hrun : ((do
      Check.checkModules [limitModule]
      let typed ← answer limitSum
      return (typed.constant, typed.type.shape.width?) : Check (Option Const × Option Width))
      { options := .library }).value? = some (some (.int 127), some .w8) := by decide +kernel
  obtain ⟨_, hrun⟩ := Outcome.value?_eq_some.mp hrun
  obtain ⟨_, c, hmodules, hrun⟩ := Run.bind_eq_ok.mp hrun
  obtain ⟨typed, d, htyped, hreturn⟩ := Run.bind_eq_ok.mp hrun
  have hvalue := (Outcome.ok.inj hreturn).1
  rw [Prod.mk.injEq] at hvalue
  obtain ⟨hconstant, hwidth⟩ := hvalue
  have hc : Point c := .session ⟨.library, .single (.modules _ (Run.ends_of_ok hmodules))⟩
  have hshape : typed.type.shape = .int .w8 := by
    cases hshape : typed.type.shape <;> simp_all [Shape.width?]
  obtain ⟨n, hn, -, -, heval⟩ := (folding_sound hc htyped hconstant).1 .w8 hshape
  cases hn
  exact ⟨c, d, typed, hc, htyped, hconstant, heval _ (storeOf_holds d)⟩

end Session

end OwnLang
