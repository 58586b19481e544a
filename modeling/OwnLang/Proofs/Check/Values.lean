import Mathlib
import OwnLang.Entity.Intrinsic
import OwnLang.Proofs.Check.Registered
import OwnLang.Proofs.Check.Signatures
import OwnLang.Proofs.Check.TypedBody

/-!
# Nodes that stand for values

A macro that can be called returns nothing, so its call stands as a statement or behind `return`, and
nowhere else. All other nodes of a checked tree stand for values (`Core.Expr.IsValue`), but for calls
of functions that return nothing, which stand in the same places. So does a whole body that checking
accepts (`Check.Valuing`): in each of its statements that are emitted only the outermost node may have
no value (`Core.Stmt.Stands`).

What a tree is made of does not depend on the context, so it is kept for good. `Check.Ensures` says of
a run what its result is made of; there is one lemma for each part of checking.
-/

namespace OwnLang

namespace Shape

variable {s : Shape}

theorem isVoid_of_struct? {id : StructId} (h : s.struct? = some id) : s.isVoid = false := by
  cases s with
  | struct _ _ => rfl
  | _ => cases h

theorem isVoid_of_pointee? {target : Ty × Bool} (h : s.pointee? = some target) : s.isVoid = false := by
  cases s with
  | owner _ _ => rfl
  | shared _ _ => rfl
  | _ => cases h

end Shape

namespace Core

/-- A node stands for a value: what is known of it is one of its type, what names a function has the
type of one, and it is no call of a macro. -/
structure Expr.IsValue (e : Expr) : Prop where
  fits : ∀ k, e.constant = some k → k.Fits e.type.shape
  function : ∀ id, e.kind = .function id →
    ∃ params variadic returns, e.type.shape = .func params variadic returns
  noMacro : ∀ id args, e.kind ≠ .macroCall id args

/-- All nodes stand for values. -/
def Values (parts : List Expr) : Prop := ∀ part ∈ parts, part.IsValue

/-- All nodes below the outermost one stand for values. That one is a function or the call of a macro
only if its type says so. -/
structure Expr.Formed (e : Expr) : Prop where
  below : Values e.kind.parts
  function : ∀ id, e.kind = .function id →
    ∃ params variadic returns, e.type.shape = .func params variadic returns
  silent : ∀ id args, e.kind = .macroCall id args → e.type.shape.isVoid = true

/-- All nodes below the outermost one stand for values, and that one does if its type has any. -/
structure Expr.Stands (e : Expr) : Prop extends e.Formed where
  fits : ∀ k, e.constant = some k → k.Fits e.type.shape

section

variable {parts parts' : List Expr} {e : Expr}

theorem values_nil : Values [] := nofun

theorem values_cons : Values (e :: parts) ↔ e.IsValue ∧ Values parts := List.forall_mem_cons

theorem values_append : Values (parts ++ parts') ↔ Values parts ∧ Values parts' :=
  List.forall_mem_append

theorem values_partsOf {l : List Expr} : Values (partsOf l) ↔ ∀ e ∈ l, Values e.parts := by
  induction l with
  | nil => simp [partsOf, values_nil]
  | cons e rest ih => rw [partsOf, values_append, ih, List.forall_mem_cons]

/-- The outermost node, and those below it. -/
theorem Expr.values_parts : Values e.parts ↔ e.IsValue ∧ Values e.kind.parts := by
  cases e
  exact values_cons

theorem Expr.Stands.values (h : e.Stands) (hvalue : e.type.shape.isVoid = false) : Values e.parts :=
  values_parts.mpr ⟨⟨h.fits, h.function, fun id args hkind => by
    simp [h.silent id args hkind] at hvalue⟩, h.below⟩

theorem Expr.stands_of_values (h : Values e.parts) : e.Stands := by
  obtain ⟨hvalue, hbelow⟩ := values_parts.mp h
  exact ⟨⟨hbelow, hvalue.function, fun id args hkind => absurd hkind (hvalue.noMacro id args)⟩,
    hvalue.fits⟩

/-- A node that is neither a function nor the call of a macro. -/
theorem Expr.formed_mk {kind : ExprKind} {t : Ty} {k : Option Const} {span : Span}
    (hbelow : Values kind.parts) (hfunction : ∀ id, kind ≠ .function id)
    (hinvoke : ∀ id args, kind ≠ .macroCall id args) : (Expr.mk kind t k span).Formed :=
  ⟨hbelow, fun id hid => absurd hid (hfunction id), fun id args hid => absurd hid (hinvoke id args)⟩

/-- A node of which nothing is known, and that is neither a function nor the call of a macro. -/
theorem Expr.isValue_computed {kind : ExprKind} {t : Ty} {span : Span}
    (hfunction : ∀ id, kind ≠ .function id) (hinvoke : ∀ id args, kind ≠ .macroCall id args) :
    (Expr.computed kind t span).IsValue :=
  ⟨nofun, fun id hid => absurd hid (hfunction id), hinvoke⟩

/-- What is converted stands for a value of the type that it is converted to. -/
theorem values_coerce {e' : Expr} {t : Ty} (he : Values e.parts) (h : e.coerce t = .ok e') :
    Values e'.parts := by
  obtain ⟨hvalue, -⟩ := Expr.values_parts.mp he
  unfold Expr.coerce at h
  split at h
  · cases h
    exact he
  · split at h
    · rename_i source target n hcast hconstant
      unfold Expr.literal at h
      split at h
      · rename_i hfits
        cases h
        refine Expr.values_parts.mpr ⟨⟨fun k hk => ?_, nofun, nofun⟩, values_nil⟩
        cases hk
        show Const.Fits (.int n) t.shape
        rw [(Cast.between?_int hcast).2]
        exact intFits_iff.mp hfits
      · cases h
    · cases h
      exact Expr.values_parts.mpr ⟨Expr.isValue_computed nofun nofun, he⟩
    · rename_i hcast
      cases h
      refine Expr.values_parts.mpr ⟨⟨fun k hk => ?_, nofun, nofun⟩, he⟩
      obtain ⟨hsource, htarget⟩ := Cast.between?_pointer hcast
      exact (Const.fits_address htarget).mpr ((Const.fits_address hsource).mp (hvalue.fits k hk))
    · cases h

end

/-! ## Statements that are emitted -/

mutual

/-- The statements that are emitted for a statement. -/
def Stmt.emitted : Stmt → List Stmt
  | .mk kind span dead => .mk kind span dead :: kind.emitted

/-- The statements that are emitted inside a form of a statement. -/
def StmtKind.emitted : StmtKind → List Stmt
  | .declare _ _ | .assign _ _ _ | .expr _ _ | .ret _ _ | .brk _ _ | .cont _ _ => []
  | .cond branches otherwise => emittedBranches (emittedOptionalBlock otherwise) branches
  | .loop _ init _ step body _ =>
    emittedOptionalStmt init ++ (body.emitted ++ emittedOptionalStmt step)
  | .scope block => block.emitted

/-- The statements that are emitted for a block. -/
def Block.emitted : Block → List Stmt
  | .mk stmts _ => emittedStmts stmts

/-- The statements that are emitted for a list of statements: those that executions reach. -/
def emittedStmts : List Stmt → List Stmt
  | [] => []
  | s :: rest => (if s.unreachable then [] else s.emitted) ++ emittedStmts rest

/-- The statements that are emitted for branches, with those behind them. -/
def emittedBranches (otherwise : List Stmt) : List (Expr × Block) → List Stmt
  | [] => otherwise
  | (condition, body) :: rest =>
    match condition.known? with
    | some false => emittedBranches otherwise rest
    | some true => body.emitted
    | none => body.emitted ++ emittedBranches otherwise rest

/-- The statements that are emitted for a block that may be missing. -/
def emittedOptionalBlock : Option Block → List Stmt
  | none => []
  | some block => block.emitted

/-- The statements that are emitted for a statement that may be missing. -/
def emittedOptionalStmt : Option Stmt → List Stmt
  | none => []
  | some s => s.emitted

end

/-- The nodes of the expressions that a statement evaluates, those in its blocks left out. -/
def Stmt.parts (s : Stmt) : List Expr :=
  match s.kind with
  | .declare _ value | .ret value _ => partsOf value.toList
  | .assign target value _ => target.parts ++ value.parts
  | .expr value _ => value.parts
  | .cond branches _ => partsOf (branches.map (·.1))
  | .loop _ _ condition _ _ _ => partsOf condition.toList
  | .brk _ _ | .cont _ _ | .scope _ => []

/-- All nodes that a statement evaluates stand for values. Only of an expression that stands as a
statement, or behind `return`, the outermost node need not. -/
def Stmt.Stands (s : Stmt) : Prop :=
  match s.kind with
  | .expr value _ => value.Stands
  | .ret value _ => ∀ e, value = some e → e.Stands
  | _ => Values s.parts

/-- Every statement that is emitted stands. -/
def AllStand (stmts : List Stmt) : Prop := ∀ s ∈ stmts, s.Stands

/-- A macro is called where an expression stands as a statement or behind `return`, with values, and
returns nothing. -/
theorem Stmt.Stands.macroCall {s : Stmt} (h : s.Stands) {call : Expr} (hcall : call ∈ s.parts)
    {id : MacroId} {args : List Expr} (hkind : call.kind = .macroCall id args) :
    ((∃ release, s.kind = .expr call release) ∨ ∃ drops, s.kind = .ret (some call) drops) ∧
      call.type.shape.isVoid = true ∧ ∀ arg ∈ args, Values arg.parts := by
  have hnone {parts : List Expr} (hparts : Values parts) (hmem : call ∈ parts) : False :=
    (hparts call hmem).noMacro id args hkind
  have hroot {e : Expr} (he : e.Stands) (hmem : call ∈ e.parts) :
      e = call ∧ call.type.shape.isVoid = true ∧ ∀ arg ∈ args, Values arg.parts := by
    cases e with
    | mk kind t k span =>
      rcases List.mem_cons.mp hmem with rfl | hmem
      · obtain rfl := hkind
        exact ⟨rfl, he.silent id args rfl, values_partsOf.mp he.below⟩
      · exact (hnone he.below hmem).elim
  obtain ⟨kind, span, dead⟩ := s
  cases kind with
  | expr value release =>
    obtain ⟨rfl, hargs⟩ := hroot (e := value) h hcall
    exact ⟨.inl ⟨release, rfl⟩, hargs⟩
  | ret value drops =>
    cases value with
    | none => cases hcall
    | some value =>
      have hmem : call ∈ value.parts := by simpa [Stmt.parts, Stmt.kind, partsOf] using hcall
      obtain ⟨rfl, hargs⟩ := hroot (h value rfl) hmem
      exact ⟨.inr ⟨drops, rfl⟩, hargs⟩
  | _ => exact (hnone h hcall).elim

section

variable {stmts rest : List Stmt} {s : Stmt}

theorem allStand_nil : AllStand [] := nofun

theorem allStand_cons : AllStand (s :: stmts) ↔ s.Stands ∧ AllStand stmts := List.forall_mem_cons

theorem allStand_append : AllStand (stmts ++ rest) ↔ AllStand stmts ∧ AllStand rest :=
  List.forall_mem_append

theorem Stmt.allStand_emitted : AllStand s.emitted ↔ s.Stands ∧ AllStand s.kind.emitted := by
  cases s
  exact allStand_cons

/-- It does not matter for a statement itself whether it is reached. -/
theorem Stmt.allStand_flagged (h : AllStand s.emitted) (dead : Bool) :
    AllStand (s.flagged dead).emitted := by
  cases s
  obtain ⟨hself, hinside⟩ := allStand_emitted.mp h
  exact allStand_emitted.mpr ⟨hself, hinside⟩

theorem allStand_emittedStmts {stmts : List Stmt} (h : ∀ s ∈ stmts, AllStand s.emitted) :
    AllStand (emittedStmts stmts) := by
  induction stmts with
  | nil => exact allStand_nil
  | cons s rest ih =>
    obtain ⟨hs, hrest⟩ := List.forall_mem_cons.mp h
    rw [emittedStmts, allStand_append]
    refine ⟨?_, ih hrest⟩
    split
    · exact allStand_nil
    · exact hs

theorem allStand_emittedBranches {otherwise : List Stmt} {branches : List (Expr × Block)}
    (h : ∀ branch ∈ branches, AllStand branch.2.emitted) (hotherwise : AllStand otherwise) :
    AllStand (emittedBranches otherwise branches) := by
  induction branches with
  | nil => exact hotherwise
  | cons branch rest ih =>
    obtain ⟨hbody, hrest⟩ := List.forall_mem_cons.mp h
    rw [emittedBranches]
    split
    · exact ih hrest
    · exact hbody
    · exact allStand_append.mpr ⟨hbody, ih hrest⟩

theorem allStand_optionalBlock {block : Option Block}
    (h : ∀ b, block = some b → AllStand b.emitted) : AllStand (emittedOptionalBlock block) := by
  cases block with
  | none => exact allStand_nil
  | some b => exact h b rfl

theorem allStand_optionalStmt {s : Option Stmt} (h : ∀ stmt, s = some stmt → AllStand stmt.emitted) :
    AllStand (emittedOptionalStmt s) := by
  cases s with
  | none => exact allStand_nil
  | some s => exact h s rfl

end

end Core

open OwnLang.Core (Values AllStand)

/-- A macro that can be called returns nothing. -/
def MacroDef.Silent (m : MacroDef) : Prop :=
  (Intrinsic.ofPath? m.fullName).isSome → m.decl.returns = none ∧ m.returns.shape = .void

/-- What has a context accepted stands for values, and macros return nothing. -/
structure Context.Valued (c : Context) : Prop where
  silent : ∀ m ∈ c.macros, m.Silent
  defaults : ∀ id, ∀ f ∈ (c.struct id).fields, ∀ e, f.default = some e → Values e.parts
  bodies : ∀ body ∈ c.bodies, AllStand body.block.emitted

theorem Context.Valued.silent_macroDef {c : Context} (h : c.Valued) (id : MacroId) :
    (c.macroDef id).Silent := by
  rcases Nat.lt_or_ge id.index c.macros.size with hid | hid
  · unfold macroDef
    rw [Array.getElem?_eq_getElem hid]
    exact h.silent _ (Array.getElem_mem hid)
  · unfold macroDef
    rw [Array.getElem?_eq_none hid]
    exact nofun

namespace Check

variable {origin c d e : Context}

/-! ## Contexts -/

/-- Macros have gone forward, and what was accepted stands for values. -/
structure Tended (origin c : Context) : Prop where
  macros : Retained MacroDef.Forwards origin.macros c.macros
  valued : c.Valued

/-- A context is well typed, what it remembers fits, and what it has accepted stands for values. -/
structure Valuing (origin c : Context) : Prop extends Elaborated origin c, Tended origin c where
  known : Known origin c

theorem Valuing.self (h : Valuing origin c) : Valuing c c :=
  ⟨h.toElaborated.self, ⟨.refl .refl _, h.valued⟩, h.known.self⟩

theorem Tended.later (h : Tended origin c) (hmacros : d.macros = c.macros)
    (hstructs : ∀ id, (d.struct id).fields = (c.struct id).fields ∨
      ∀ f ∈ (d.struct id).fields, ∀ e, f.default = some e → Values e.parts)
    (hbodies : d.bodies = c.bodies) : Tended origin d where
  macros := hmacros ▸ h.macros
  valued.silent := hmacros ▸ h.valued.silent
  valued.bodies := hbodies ▸ h.valued.bodies
  valued.defaults id := by
    rcases hstructs id with hfields | hfields
    · rw [hfields]
      exact h.valued.defaults id
    · exact hfields

theorem Tended.of_eq (h : Tended origin c) (hmacros : d.macros = c.macros)
    (hstructs : d.structs = c.structs) (hbodies : d.bodies = c.bodies) : Tended origin d :=
  h.later hmacros (fun id => .inl (by rw [struct_of_eq hstructs])) hbodies

/-- Only the entities, the bodies and the facts of the locals matter. -/
theorem Valuing.of_eq (h : Valuing origin c) (hglobals : d.globals = c.globals)
    (hstructs : d.structs = c.structs) (hmacros : d.macros = c.macros) (hbodies : d.bodies = c.bodies)
    (hlocals : ∀ id, (slotOf d id).value = (slotOf c id).value ∧
      (slotOf d id).type = (slotOf c id).type) : Valuing origin d :=
  ⟨h.toElaborated.of_eq hglobals hstructs hbodies, h.toTended.of_eq hmacros hstructs hbodies,
    h.known.of_eq hglobals hlocals⟩

theorem Tended.withGlobal (h : Tended origin c) (g : Global) : Tended origin (c.withGlobal g) :=
  h.of_eq rfl rfl rfl

theorem Tended.newStruct (h : Tended origin c) (decl : Surface.StructDecl) (scope : Scope)
    (symbol display : String) (isInstance : Bool) :
    Tended origin (c.newStruct decl scope symbol display isInstance) := by
  refine Context.withMethods_induction ?_ fun d hd method _ => ?_
  · refine h.later rfl (fun id => ?_) rfl
    rw [Context.struct_withStruct]
    split
    · exact .inr fun f hf => by cases hf
    · exact .inl rfl
  · refine hd.later rfl (fun id => .inl ?_) rfl
    rw [Context.struct_withMethod]
    split <;> rfl

theorem Tended.withMacro (h : Tended origin c) {m : MacroDef} (hm : m.Silent) (package : PackageId)
    (name : String) : Tended origin (c.withMacro package name m) where
  macros := h.macros.push m
  valued.silent m' hm' := by
    rcases Array.mem_push.mp hm' with hm' | rfl
    · exact h.valued.silent m' hm'
    · exact hm
  valued.defaults := h.valued.defaults
  valued.bodies := h.valued.bodies

/-- What is declared has been accepted of nothing yet, and a macro returns nothing if it is silent. -/
theorem tended_declareEntity {kind : Surface.ItemKind} {scope : Scope} {names : Option InstanceNames}
    (hinvoke : ∀ (c : Context) (m : MacroDef), kind = .macroDecl m.decl →
      m.fullName = Context.displayAt (c.entityPath kind scope) names →
        m.returns = Shape.void.plain → m.Silent) :
    (declareEntity kind scope names).Preserves (Tended origin) :=
  Context.preserves_declareEntity_of (fun _ _ _ _ _ _ hc => hc.withGlobal _)
    (fun _ _ _ _ _ _ hc => hc.newStruct ..) (fun _ _ _ _ _ hc => hc.withGlobal _)
    (fun _ _ hc => hc.of_eq rfl rfl rfl)
    fun c m hkind _ hname hreturns hc => hc.withMacro (hinvoke c m hkind hname hreturns) _ _

/-- The path of an instance ends in a bracket. -/
theorem ofPath?_instancePath (path : String) (args : List Ty) :
    Intrinsic.ofPath? (instancePath path args) = none := by
  have hlast : (instancePath path args).toList.getLast? = some '>' := by
    unfold instancePath
    rw [String.toList_append]
    exact List.getLast?_concat
  unfold Intrinsic.ofPath?
  split
  · rename_i h
    rw [h] at hlast
    revert hlast
    decide
  · rename_i h
    rw [h] at hlast
    revert hlast
    decide
  · rfl

theorem valuing_detached {α : Type} {work : Check α} (h : work.Preserves (Valuing origin)) :
    (detached work).Preserves (Valuing origin) := by
  intro c d hd hc
  obtain ⟨e, hwork, rfl⟩ := Run.ends_andFinally hd
  have he := h hwork ⟨hc.toElaborated.of_eq rfl rfl rfl, hc.toTended.of_eq rfl rfl rfl,
    hc.known.withoutFrame fun id => localAt_default id⟩
  exact ⟨he.toElaborated.of_eq rfl rfl rfl, he.toTended.of_eq rfl rfl rfl,
    he.known.globals, he.known.kept, hc.known.locals⟩

theorem tended_modifyFrame (change : Frame → Frame) : (modifyFrame change).Preserves (Tended origin) :=
  Run.preserves_modify fun _ hc => hc.of_eq rfl rfl rfl

/-- What keeps all of it keeps it together. -/
theorem valuing_of_parts {α : Type} {work : Check α} (helaborated : work.Preserves (Elaborated origin))
    (htended : work.Preserves (Tended origin)) (hknown : work.Preserves (Known origin)) :
    work.Preserves (Valuing origin) := fun _ _ hd hc =>
  ⟨helaborated hd hc.toElaborated, htended hd hc.toTended, hknown hd hc.known⟩

theorem valuing_consume (value : Core.Expr) : (consume value).Preserves (Valuing origin) :=
  valuing_of_parts (preserves_consume elaborated_modifyFrame value)
    (preserves_consume tended_modifyFrame value) (known_consume value)

theorem valuing_declareLocal {name : Surface.Ident} {t : Ty} {constant : Bool} {value : Option Const}
    (hvalue : ∀ v, value = some v → v.Fits t.shape) :
    (declareLocal name t constant value).Preserves (Valuing origin) :=
  valuing_of_parts (preserves_declareLocal elaborated_modifyFrame _ _ _ _)
    (preserves_declareLocal tended_modifyFrame _ _ _ _) (known_declareLocal hvalue)

/-- An instance of a template is declared. -/
theorem valuing_declareInstance (kind : Surface.ItemKind) (scope : Scope) (number : Nat) (path : String)
    (args : List Ty) :
    (declareEntity kind scope (some ⟨number, instancePath path args⟩)).Preserves (Valuing origin) :=
  valuing_of_parts (preserves_declareEntity elaborated_additive _ _ _)
    (tended_declareEntity fun _ _ _ hname _ hsome => by
      rw [hname, Context.displayAt, ofPath?_instancePath path args] at hsome
      cases hsome)
    (preserves_declareEntity known_additive _ _ _)

end Check

/-! ## Answers -/

/-- All that an expression denotes is made of stands for values, but for the value itself if it is
`void`. -/
def Denoted.Stands : Denoted → Prop
  | .value e => e.Stands
  | .place p => Values p.parts

namespace Check

open Run (yields_pure yields_fail yields_reject yields_ofExcept yields_get_bind yields_reject_bind)
open Surface (Ident)

variable {ask : Asker} {scope : Scope} {origin c d e : Context}

/-- What an answer is made of. -/
def Stood : (q : Query) → q.Answer → Prop
  | .value .., e => Values e.parts
  | .denoted .., denoted => denoted.Stands
  | .stmt .., s => AllStand s.emitted
  | .block .., (b, _) => AllStand b.emitted
  | .type .., _ | .typeAlias .., _ | .layout .., _ | .global .., _ => True

/-- Answers keep contexts in which all stands for values, and are made of values. -/
structure Valuer (ask : Asker) : Prop where
  elaborates : Elaborates ask
  faithful : Faithful ask
  keeps : ∀ origin q, (ask q).Preserves (Valuing origin)
  sound : ∀ {c d : Context} {q : Query} {a : q.Answer}, Valuing c c → ask q c = .ok a d → Stood q a

/-- Where checking leads while all that is accepted stands for values. -/
def onValues : Way Context where
  ready c := Valuing c c
  along _ d := Valuing d d
  refl h := h
  trans _ h := h
  arrives h := h

/-- A run that, if it succeeds, keeps what stands for values and has a result of this kind. -/
abbrev Ensures {α : Type} (c : Context) (x : Check α) (Q : Context → α → Prop) : Prop :=
  Run.Yields onValues c x Q

theorem ensures_of_preserves {α : Type} {work : Check α}
    (h : ∀ origin, work.Preserves (Valuing origin)) : Ensures c work fun _ _ => True :=
  fun hc _ _ hrun => ⟨(h c (Run.ends_of_ok hrun) hc).self, trivial⟩

section

variable (hv : Valuer ask)

include hv

theorem Valuer.answer {q : Query} : Ensures c (ask q) fun d a => Stood q a ∧ Answered d q a :=
  fun hc _ _ h => ⟨(hv.keeps c q (Run.ends_of_ok h) hc).self, hv.sound hc h, hv.faithful.sound hc.known h⟩

theorem ensures_value {e : Surface.Expr} {expected : Option Ty} :
    Ensures c (ask (.value e expected scope)) fun _ v => Values v.parts :=
  hv.answer.mono fun _ _ _ h => h.1

theorem ensures_denoted {e : Surface.Expr} {write : Bool} :
    Ensures c (ask (.denoted e write scope)) fun d denoted =>
      denoted.Stands ∧ ∀ place, denoted = .place place → PlaceKnown d place :=
  hv.answer.mono fun _ _ _ h => ⟨h.1, fun _ hplace => by
    subst hplace
    exact h.2⟩

theorem ensures_answer {q : Query} : Ensures c (ask q) fun _ _ => True :=
  hv.answer.mono fun _ _ _ _ => trivial

theorem ensures_global {id : GlobalId} {span : Span} :
    Ensures c (ask (.global id span)) fun d t => d.typeOf? id = some t := fun hc _ _ h =>
  ⟨(hv.keeps c _ (Run.ends_of_ok h) hc).self, hv.elaborates.global hc.wellTyped h⟩

/-! ## Structs and macros -/

theorem ensures_resolveField {before : List Field} {decl : Surface.VarDecl} :
    Ensures c (resolveField ask scope before decl) fun _ f =>
      ∀ e, f.default = some e → Values e.parts := by
  unfold resolveField
  extract_lets +onlyGivenNames declare
  have hanswers (o : Context) (q : Query) (_ : q.isExpr) := hv.keeps o q
  have hdeclare : Ensures c (declare ⟨⟩) fun _ f => ∀ e, f.default = some e → Values e.parts := by
    refine (ensures_of_preserves fun o => preserves_writtenType (hanswers o) _ _).bind
      fun declared d _ _ => ?_
    extract_lets +onlyGivenNames withDefault
    have hdefault (default : Option Core.Expr) (e : Context)
        (hvalue : ∀ v, default = some v → Values v.parts) :
        Ensures e (withDefault default) fun _ f => ∀ e, f.default = some e → Values e.parts := by
      dsimp -zeta only [withDefault]
      extract_lets +onlyGivenNames withType
      have htype (t : Ty) :
          Ensures e (withType t) fun _ f => ∀ e, f.default = some e → Values e.parts := by
        refine (ensures_of_preserves fun _ => preserves_requireValueType t _).bind fun _ f _ _ =>
          (ensures_of_preserves fun o => preserves_complete (hanswers o) t _).bind
            fun _ g _ _ => .unless (yields_pure fun _ => hvalue)
      split
      · exact htype _
      · exact htype _
      · exact yields_reject_bind _ _ _
    split
    · exact hdefault none d nofun
    · refine Run.Yields.bind (Q := fun _ default => ∀ v, default = some v → Values v.parts) ?_
        fun default e _ hvalue => hdefault default e hvalue
      refine (ensures_value hv).map fun v e _ hvalue v' hv' => ?_
      cases hv'
      exact hvalue
  split
  · exact fun _ _ _ hrun => by cases hrun
  · exact hdeclare

theorem ensures_resolveFields {decls : List Surface.VarDecl} {done : List Field}
    (hdone : ∀ f ∈ done, ∀ e, f.default = some e → Values e.parts) :
    Ensures c (resolveFields ask scope done decls) fun _ fields =>
      ∀ f ∈ fields, ∀ e, f.default = some e → Values e.parts := by
  induction decls generalizing c done with
  | nil => exact yields_pure fun _ => hdone
  | cons decl rest ih =>
    refine (ensures_resolveField hv).bind fun next d _ hnext => ih fun f hf => ?_
    rcases List.mem_append.mp hf with hf | hf
    · exact hdone f hf
    · rw [List.mem_singleton.mp hf]
      exact hnext

theorem valuing_structWork (s : StructDef) : (structWork ask s).Preserves (Valuing origin) :=
  valuing_detached (preserves_resolveFields (fun q _ => hv.keeps origin q) _ _ _)

omit hv in
theorem Valuing.laying (hc : Valuing origin c) {id : StructId}
    (hstate : (c.struct id).state = .declared) : Valuing origin (laying c id) := by
  refine ⟨hc.toElaborated.laying hstate, hc.toTended.later rfl (fun other => .inl ?_) rfl,
    hc.known.globals, hc.known.kept, hc.known.locals⟩
  unfold Check.laying
  rw [struct_modifyStruct]
  split <;> rfl

theorem valuing_resolveStruct (id : StructId) (usedAt : Span) :
    (resolveStruct ask id usedAt).Preserves (Valuing origin) := by
  intro c d hd hc
  have hlast := elaborated_resolveStruct hv.elaborates id usedAt hd hc.toElaborated
  have hknown := (known_stable hv.faithful).structResolved id usedAt hd hc.known
  obtain rfl | ⟨hstate, hend | ⟨fields, c₁, hwork, rfl | rfl⟩⟩ := ends_resolveStruct hd
  · exact hc
  · exact valuing_structWork hv _ hend (hc.laying hstate)
  · exact valuing_structWork hv _ (Run.ends_of_ok hwork) (hc.laying hstate)
  · have hc₁ := valuing_structWork hv _ (Run.ends_of_ok hwork) (hc.laying hstate)
    refine ⟨hlast, hc₁.toTended.later rfl (fun other => ?_) rfl, hknown⟩
    obtain ⟨c₂, hfields, -⟩ := Run.andFinally_eq_ok.mp hwork
    have hlaying := hc.laying hstate
    have hdetached : Valuing origin { Check.laying c id with frame := none } :=
      ⟨hlaying.toElaborated.of_eq rfl rfl rfl, hlaying.toTended.of_eq rfl rfl rfl,
        hlaying.known.withoutFrame fun id => localAt_default id⟩
    have hvalues := (ensures_resolveFields hv (fun f hf => by cases hf) hdetached.self hfields).2
    unfold laidOut
    rw [struct_modifyStruct]
    split
    · exact .inr hvalues
    · exact .inl rfl

omit hv in
/-- A macro for which no type is written returns nothing. -/
theorem macroSignature_returns {decl : Surface.MacroDecl} {params : List MacroParam} {returns : Ty}
    (hnone : decl.returns = none) (h : macroSignature ask decl scope c = .ok (params, returns) d) :
    returns = Shape.void.plain := by
  obtain ⟨params, c₁, -, h⟩ := Run.bind_eq_ok.mp h
  obtain ⟨returns, c₂, hreturns, hreturn⟩ := Run.bind_eq_ok.mp h
  cases hreturn
  rw [hnone] at hreturns
  cases hreturns
  rfl

omit hv in
/-- The signature of a macro that can be called says that it returns nothing. -/
theorem Tended.signed (hc : Tended origin c) {id : MacroId} {params : List MacroParam} {returns : Ty}
    (hvoid : (c.macroDef id).decl.returns = none → returns = Shape.void.plain) :
    Tended origin (signed c id params returns) where
  macros := hc.macros.modify fun _ _ _ _ h => ⟨h.declared, fun _ => rfl⟩
  valued.defaults := hc.valued.defaults
  valued.bodies := hc.valued.bodies
  valued.silent m hm := by
    dsimp only [Check.signed, Context.modifyMacro] at hm
    obtain hm | ⟨m', hm', rfl⟩ := mem_modify hm
    · exact hc.valued.silent m hm
    · have hinvoke : c.macroDef id = m' := by simp [Context.macroDef, hm']
      intro hsome
      obtain ⟨hnone, -⟩ := hc.valued.silent m' (Array.mem_of_getElem? hm') hsome
      refine ⟨hnone, ?_⟩
      rw [hvoid (hinvoke ▸ hnone)]
      rfl

theorem valuing_resolveMacro (id : MacroId) : (resolveMacro ask id).Preserves (Valuing origin) := by
  have hanswers (o : Context) (q : Query) (_ : q.isExpr) := hv.keeps o q
  have hsignature (o : Context) (m : MacroDef) :
      (macroSignature ask m.decl m.scope).Preserves (Valuing o) :=
    (follows_macroSignature (follows_answers (hanswers o)) _ _).preserves
  intro c d hd hc
  rw [resolveMacro_eq] at hd
  replace hd := Run.ends_get_bind hd
  dsimp only at hd
  split at hd
  · exact Run.preserves_pure _ hd hc
  obtain hend | ⟨⟨params, returns⟩, c₁, hsig, hwrite⟩ := Run.ends_bind hd
  · exact hsignature origin _ hend hc
  · obtain rfl := Run.ends_modify hwrite
    have hc₁ := hsignature origin _ (Run.ends_of_ok hsig) hc
    refine ⟨hc₁.toElaborated.of_eq rfl rfl rfl, hc₁.toTended.signed fun hnone => ?_,
      hc₁.known.globals, hc₁.known.kept, hc₁.known.locals⟩
    -- While its signature was found out the macro has kept its declaration.
    refine macroSignature_returns ?_ hsig
    rcases Nat.lt_or_ge id.index c.macros.size with hid | hid
    · have hkept := (hsignature c _ (Run.ends_of_ok hsig) hc.self).macros.getD hid
      exact (congrArg Surface.MacroDecl.returns hkept.written.1).symm.trans hnone
    · unfold Context.macroDef
      rw [Array.getElem?_eq_none hid]
      rfl

/-- All that is checked keeps what stands for values. -/
theorem valuing_following : Following (.keeping (Valuing origin)) ask ask where
  answers q _ := (hv.keeps origin q).follows
  consume value := (valuing_consume value).follows
  macroSigned id := (valuing_resolveMacro hv id).follows
  instantiate id args span := (preserves_instance
    (fun _ _ scope number path args _ => valuing_declareInstance _ scope number path args)
    (fun q _ => hv.keeps origin q) valuing_detached
    (fun _ _ _ hc => hc.of_eq rfl rfl rfl rfl fun _ => ⟨rfl, rfl⟩)
    (fun _ _ _ hc => hc.of_eq rfl rfl rfl rfl fun _ => ⟨rfl, rfl⟩) id args span).follows

theorem valuing_resolveGlobal (id : GlobalId) (usedAt : Span) :
    (resolveGlobal ask id usedAt).Preserves (Valuing origin) := by
  intro c d hd hc
  have hlast := elaborated_resolveGlobal hv.elaborates id usedAt hd hc.toElaborated
  have hknown := known_resolveGlobal hv.faithful id usedAt hd hc.known
  have hkeeps : (detached (globalWork ask (c.global id))).Preserves (Valuing origin) :=
    valuing_detached (preserves_globalWork (valuing_following hv) _)
  have hstarted (hid : ¬ Settled (c.global id)) : Valuing origin (started c id) :=
    ⟨hc.toElaborated.started hid, hc.toTended.of_eq rfl rfl rfl, hc.known.started hid⟩
  obtain rfl | ⟨hid, hend | ⟨t, value, c₁, hwork, rfl⟩⟩ := ends_resolveGlobal hd
  · exact hc
  · exact hkeeps hend (hstarted hid)
  · exact ⟨hlast, (hkeeps (Run.ends_of_ok hwork) (hstarted hid)).toTended.of_eq rfl rfl rfl, hknown⟩

end

/-! ## Literals, variables and elements -/

theorem formed_literal {n : Int} {t : Ty} {width : Width} {span : Span} {e : Core.Expr}
    (h : Core.Expr.literal n t width span = .ok e) : e.Formed := by
  unfold Core.Expr.literal at h
  split at h
  · cases h
    exact Core.Expr.formed_mk Core.values_nil nofun nofun
  · cases h

theorem ensures_numberLiteral {n : Int} {expected : Option Ty} {span : Span} :
    Ensures c (numberLiteral n expected span) fun _ e => e.Formed :=
  yields_ofExcept fun _ => formed_literal

theorem values_read {place : Core.Place} (hplace : Values place.parts) : Values place.read.parts :=
  Core.Expr.values_parts.mpr ⟨Core.Expr.isValue_computed nofun nofun, hplace⟩

theorem values_pointerTo {place : Core.Place} (hplace : Values place.parts) (constant : Bool)
    (span : Span) : Values (place.pointerTo constant span).parts :=
  Core.Expr.values_parts.mpr ⟨Core.Expr.isValue_computed nofun nofun, hplace⟩

/-- What is read is what is known of the location. -/
theorem ensures_readPlace {place : Core.Place} (hplace : Values place.parts)
    (hknown : PlaceKnown c place) : Ensures c (readPlace place) fun _ e => Values e.parts := by
  intro hc e d h
  have hfolds := folds_readPlace hc.known hknown h
  obtain ⟨rfl, rfl⟩ := readPlace_eq_ok h
  exact ⟨hc, Core.Expr.values_parts.mpr ⟨⟨fun k hk => (hfolds k hk).fits, nofun, nofun⟩, hplace⟩⟩

theorem ensures_readDenoted {denoted : Denoted} (hdenoted : denoted.Stands)
    (hknown : ∀ place, denoted = .place place → PlaceKnown c place) :
    Ensures c (readDenoted denoted) fun _ e => e.Stands := by
  cases denoted with
  | value v => exact yields_pure fun _ => hdenoted
  | place place =>
    exact (ensures_readPlace hdenoted (hknown place rfl)).mono fun _ _ _ =>
      Core.Expr.stands_of_values

theorem ensures_slotPlace {id : LocalId} {write : Bool} {span : Span} :
    Ensures c (slotPlace id write span) fun _ place => Values place.parts := fun hc _ _ h => by
  obtain ⟨rfl, rfl⟩ := slotPlace_eq_ok h
  exact ⟨hc, Core.values_nil⟩

theorem ensures_ownFieldPlace {this : LocalId} {id : StructId} {index : Nat} {span : Span} :
    Ensures c (ownFieldPlace this id index span) fun _ place => Values place.parts := by
  refine Run.Yields.bind (Q := fun _ _ => True) (fun hc _ _ h => ?_) fun f d _ _ =>
    Run.Yields.bind (Q := fun _ _ => True) (yields_get_bind (yields_pure fun _ => trivial))
      fun field e _ _ => yields_pure fun _ => values_read Core.values_nil
  cases h
  exact ⟨hc, trivial⟩

theorem kind_of_isFunction {g : Global} (h : g.isFunction = true) :
    ∃ decl owner, g.kind = .function decl owner := by
  unfold Global.isFunction Global.fnDecl? at h
  split at h
  · exact ⟨_, _, ‹_›⟩
  · cases h

/-- A function that is resolved has the type of one. -/
theorem function_type (hc : c.WellTyped) {id : GlobalId} {t : Ty} (ht : c.typeOf? id = some t)
    (hfunction : (c.global id).isFunction = true) :
    ∃ params variadic returns, t.shape = .func params variadic returns := by
  obtain ⟨decl, owner, hkind⟩ := kind_of_isFunction hfunction
  obtain ⟨hstate, htype⟩ := Context.typeOf?_eq_some.mp ht
  obtain ⟨receiver, params, variadic, returns, hshape, -⟩ := hc.globals id decl owner t hkind hstate htype
  exact ⟨_, _, _, hshape⟩

theorem stands_function {id : GlobalId} {t : Ty} {span : Span}
    (ht : ∃ params variadic returns, t.shape = .func params variadic returns) :
    (Core.Expr.computed (.function id) t span).Stands :=
  ⟨⟨Core.values_nil, fun _ _ => ht, nofun⟩, nofun⟩

section

variable (hv : Valuer ask)

include hv

theorem ensures_globalDenoted {id : GlobalId} {span : Span} :
    Ensures c (globalDenoted ask id span) fun _ denoted => denoted.Stands := by
  refine (ensures_global hv).bind fun t d _ ht => yields_get_bind ?_
  dsimp only
  split
  · rename_i hfunction
    exact yields_pure fun hd => stands_function (function_type hd.wellTyped ht hfunction)
  · exact yields_pure fun _ => Core.values_nil

theorem ensures_pathDenoted {path : List Ident} {args : List Surface.TypeExpr} {write : Bool}
    {span : Span} : Ensures c (pathDenoted ask path args write span scope) fun _ denoted =>
      denoted.Stands := by
  refine (ensures_of_preserves fun _ =>
    (follows_resolvePath (valuing_following hv) _ _ _).preserves).bind fun referent d _ _ => ?_
  cases referent with
  | slot id => exact ensures_slotPlace.bind fun _ _ _ hplace => yields_pure fun _ => hplace
  | global id => exact ensures_globalDenoted hv
  | field this id index =>
    exact ensures_ownFieldPlace.bind fun _ _ _ hplace => yields_pure fun _ => hplace

theorem ensures_complete {t : Ty} {span : Span} : Ensures c (ask.complete t span) fun _ _ => True :=
  ensures_of_preserves fun o => preserves_complete (fun q _ => hv.keeps o q) t span

theorem ensures_pointeePlace {pointer : Surface.Expr} {span : Span} :
    Ensures c (pointeePlace ask pointer span scope) fun _ place => Values place.parts := by
  refine (ensures_value hv).bind fun value d _ hvalue => ?_
  split
  · exact yields_reject _ _
  · exact .unless ((ensures_complete hv).bind fun _ _ _ _ => yields_pure fun _ => hvalue)

omit hv in
theorem ensures_elementsOf {value : Core.Expr} {span : Span} (hvalue : value.Stands) :
    Ensures c (elementsOf value span) fun _ elements => Values elements.data.parts := by
  have hplain {shape : Shape} (hshape : value.type.shape = shape) (hnot : shape.isVoid = false) :
      Values value.parts := hvalue.values (hshape ▸ hnot)
  unfold elementsOf
  split
  · rename_i hshape
    exact yields_pure fun _ => hplain hshape rfl
  · exact yields_reject _ _
  · rename_i hshape
    dsimp only
    split
    · exact yields_pure fun _ => hplain hshape rfl
    · exact yields_reject _ _
  · rename_i hshape
    dsimp only
    split
    · exact yields_pure fun _ => hplain hshape rfl
    · exact yields_reject _ _
  · exact yields_reject _ _

omit hv in
theorem ensures_elementsDenoted {denoted : Denoted} {baseSpan span : Span}
    (hdenoted : denoted.Stands) (hknown : ∀ place, denoted = .place place → PlaceKnown c place) :
    Ensures c (elementsDenoted denoted baseSpan span) fun _ elements => Values elements.data.parts := by
  cases denoted with
  | value value => exact ensures_elementsOf hdenoted
  | place place =>
    unfold elementsDenoted
    dsimp only
    split
    · exact yields_pure fun _ => values_pointerTo hdenoted _ _
    · exact (ensures_readPlace hdenoted (hknown place rfl)).bind fun value d _ hvalue =>
        ensures_elementsOf (Core.Expr.stands_of_values hvalue)

theorem ensures_elementPlace {base index : Surface.Expr} {span : Span} :
    Ensures c (elementPlace ask base index span scope) fun _ place => Values place.parts :=
  (ensures_denoted hv).bind fun _ _ _ hdenoted =>
    (ensures_elementsDenoted hdenoted.1 hdenoted.2).bind fun _ _ _ helements =>
      (ensures_value hv).bind fun _ _ _ hposition => yields_pure fun _ =>
        Core.values_append.mpr ⟨helements, hposition⟩

/-! ## Members -/

omit hv in
/-- What a receiver is made of stands for values. -/
def Receiver.Stands : Receiver → Prop
  | .pointer value _ | .temporary value => Values value.parts

omit hv in
theorem ensures_receiverOfValue {value : Core.Expr} {span : Span} (hvalue : value.Stands) :
    Ensures c (receiverOfValue value span) fun _ found => found.2.Stands := by
  unfold receiverOfValue
  split
  · rename_i hstruct
    exact yields_pure fun _ => hvalue.values (Shape.isVoid_of_struct? hstruct)
  · rename_i hpointee
    split
    · exact yields_pure fun _ => hvalue.values (Shape.isVoid_of_pointee? hpointee)
    · exact yields_reject _ _
  · exact yields_reject _ _

theorem ensures_receiverOf {base : Surface.Expr} :
    Ensures c (receiverOf ask base scope) fun _ found => found.2.Stands := by
  refine (ensures_denoted hv).bind fun denoted d _ hdenoted => ?_
  cases denoted with
  | value value => exact ensures_receiverOfValue hdenoted.1
  | place place =>
    dsimp only
    split
    · exact yields_pure fun _ => values_pointerTo hdenoted.1 _ _
    · exact (ensures_readPlace hdenoted.1 (hdenoted.2 place rfl)).bind fun value e _ hvalue =>
        ensures_receiverOfValue (Core.Expr.stands_of_values hvalue)

/-- A static member is a function. -/
theorem ensures_structMember {id : StructId} {member : Ident} :
    Ensures c (structMember ask id member) fun d kind =>
      ∀ function, kind = .static function → (d.global function).fnKind? = some .static := by
  unfold structMember
  refine (ensures_answer hv).bind fun _ d _ _ => yields_get_bind ?_
  dsimp only
  split
  · exact yields_pure fun _ => nofun
  · refine yields_pure fun _ function hfunction => ?_
    split at hfunction
    · cases hfunction
      assumption
    · cases hfunction
  · exact yields_reject _ _

omit hv in
theorem ensures_fieldDenoted {id : StructId} {index : Nat} {receiver : Receiver} {span : Span}
    (hreceiver : receiver.Stands) : Ensures c (fieldDenoted id index receiver span) fun d denoted =>
      denoted.Stands ∧ ∀ place, denoted = .place place → PlaceKnown d place := by
  refine Run.Yields.bind (Q := fun _ _ => True) (yields_get_bind (yields_pure fun _ => trivial))
    fun field d _ _ => ?_
  cases receiver with
  | pointer value constant =>
    refine yields_pure fun _ => ⟨hreceiver, fun place hplace => ?_⟩
    cases hplace
    exact ⟨nofun, nofun⟩
  | temporary value =>
    exact yields_pure fun _ =>
      ⟨⟨Core.Expr.formed_mk hreceiver nofun nofun, nofun⟩, fun place hplace => by cases hplace⟩

/-- The type of a function whose declaration was looked at before. -/
theorem ensures_functionType {id : GlobalId} {span : Span} (hfunction : (c.global id).isFunction = true) :
    Ensures c (ask (.global id span)) fun _ t =>
      ∃ params variadic returns, t.shape = .func params variadic returns := by
  intro hc t d h
  have hd := hv.keeps c _ (Run.ends_of_ok h) hc
  refine ⟨hd.self, function_type hd.wellTyped (hv.elaborates.global hc.wellTyped h) ?_⟩
  have hid : id.index < c.globals.size := by
    by_contra hout
    rw [global_of_size_le (Nat.le_of_not_lt hout)] at hfunction
    cases hfunction
  unfold Global.isFunction Global.fnDecl? at hfunction ⊢
  rwa [hd.keeps.kinds id hid]

theorem ensures_memberDenoted {base : Surface.Expr} {member : Ident} {span : Span} :
    Ensures c (memberDenoted ask base member span scope) fun _ denoted => denoted.Stands := by
  refine (ensures_receiverOf hv).bind fun found d _ hreceiver =>
    (ensures_structMember hv).bind fun kind e _ hkind => ?_
  cases kind with
  | field index => exact (ensures_fieldDenoted hreceiver).mono fun _ _ _ h => h.1
  | static function =>
    have hfunction : (e.global function).isFunction = true := by
      have hstatic := hkind function rfl
      unfold Global.fnKind? at hstatic
      unfold Global.isFunction
      cases hdecl : (e.global function).fnDecl? with
      | none => simp [hdecl] at hstatic
      | some decl => rfl
    exact (ensures_functionType hv hfunction).bind fun t f _ ht => yields_pure fun _ =>
      stands_function ht
  | method function => exact yields_reject _ _

/-! ## Initializers -/

omit hv in
theorem formed_initialized (kind : Core.ExprKind) (hbelow : Values kind.parts)
    (hfunction : ∀ id, kind ≠ .function id) (hinvoke : ∀ id args, kind ≠ .macroCall id args) (t : Ty)
    (heap : Bool) (span : Span) : (initialized kind t heap span).Formed :=
  Core.Expr.formed_mk hbelow hfunction hinvoke

omit hv in
theorem ensures_consume {value : Core.Expr} : Ensures c (consume value) fun _ _ => True :=
  ensures_of_preserves fun _ => valuing_consume value

theorem ensures_objectType {t : Surface.TypeExpr} :
    Ensures c (objectType ask t scope) fun _ _ => True :=
  ensures_of_preserves fun _ => (follows_objectType (valuing_following hv) _ _).preserves

theorem ensures_newValue {t : Surface.TypeExpr} {value : Surface.Expr} {span : Span} :
    Ensures c (newValue ask t value span scope) fun _ e => e.Formed :=
  (ensures_objectType hv).bind fun _ _ _ _ => .unless ((ensures_value hv).bind fun _ _ _ hcontent =>
    ensures_consume.bind fun _ _ _ _ => yields_pure fun _ => 
      formed_initialized (.new _) hcontent nofun nofun ..)

theorem ensures_writtenFields {fields : List Field} {done : List FieldValue}
    {exprs : List (Ident × Surface.Expr)} (hdone : ∀ w ∈ done, Values w.value.parts) :
    Ensures c (writtenFields ask scope fields done exprs) fun _ written =>
      ∀ w ∈ written, Values w.value.parts := by
  induction exprs generalizing c done with
  | nil => exact yields_pure fun _ => hdone
  | cons expr rest ih =>
    unfold writtenFields
    split
    · exact yields_reject _ _
    · extract_lets +onlyGivenNames fill
      have hfill : Ensures c (fill ⟨⟩) fun _ written => ∀ w ∈ written, Values w.value.parts := by
        refine (ensures_value hv).bind fun value d _ hvalue =>
          ensures_consume.bind fun _ e _ _ => ih fun w hw => ?_
        rcases List.mem_append.mp hw with hw | hw
        · exact hdone w hw
        · rw [List.mem_singleton.mp hw]
          exact hvalue
      split
      · exact fun _ _ _ hrun => by cases hrun
      · exact hfill

omit hv in
/-- The value of each field is written or the default. -/
theorem values_fieldValues {fields : List Field} {written : List FieldValue} {span : Span}
    {index : Nat} {values : List Core.Expr} (hwritten : ∀ w ∈ written, Values w.value.parts)
    (hdefaults : ∀ f ∈ fields, ∀ e, f.default = some e → Values e.parts)
    (h : fieldValues written span index fields = .ok values) : ∀ value ∈ values, Values value.parts := by
  induction fields generalizing index values with
  | nil =>
    cases h
    simp
  | cons field rest ih =>
    unfold fieldValues at h
    split at h
    · rename_i value hvalue
      cases hothers : fieldValues written span (index + 1) rest with
      | error diagnostic => simp [hothers, Except.map] at h
      | ok others =>
        rw [hothers] at h
        cases h
        refine List.forall_mem_cons.mpr
          ⟨?_, ih (fun f hf => hdefaults f (List.mem_cons_of_mem _ hf)) hothers⟩
        rcases Option.or_eq_some_iff.mp hvalue with hgiven | ⟨-, hdefault⟩
        · obtain ⟨w, hw, rfl⟩ := Option.map_eq_some_iff.mp hgiven
          exact hwritten w (List.mem_of_find?_eq_some hw)
        · exact hdefaults field List.mem_cons_self value hdefault
    · cases h

theorem ensures_structValue {t : Surface.TypeExpr} {fields : List (Ident × Surface.Expr)}
    {heap : Bool} {span : Span} :
    Ensures c (structValue ask t fields heap span scope) fun _ e => e.Formed := by
  refine (ensures_answer hv).bind fun target d _ _ => ?_
  split
  · exact yields_reject _ _
  · rename_i id _
    refine (ensures_answer hv).bind fun _ e _ _ => yields_get_bind fun he =>
      ((ensures_writtenFields hv fun w hw => by cases hw).bind fun written f _ hwritten =>
        (yields_ofExcept fun values hvalues => values_fieldValues hwritten
          (he.valued.defaults id) hvalues).bind fun values g _ hvalues => yields_pure fun _ =>
            formed_initialized (.structInit ..) (Core.values_partsOf.mpr hvalues) nofun nofun ..) he

theorem ensures_elementValues {element : Ty} {exprs : List Surface.Expr} :
    Ensures c (elementValues ask scope element exprs) fun _ values =>
      ∀ value ∈ values, Values value.parts := by
  induction exprs generalizing c with
  | nil => exact yields_pure fun _ _ hv => by cases hv
  | cons e rest ih =>
    exact (ensures_value hv).bind fun value d _ hvalue => ensures_consume.bind fun _ e _ _ =>
      ih.bind fun others f _ hothers => yields_pure fun _ => List.forall_mem_cons.mpr ⟨hvalue, hothers⟩

theorem ensures_arrayValue {t : Surface.TypeExpr} {exprs : List Surface.Expr} {heap : Bool}
    {span : Span} : Ensures c (arrayValue ask t exprs heap span scope) fun _ e => e.Formed := by
  refine (ensures_objectType hv).bind fun element d _ _ => (ensures_elementValues hv).bind
    fun values e _ hvalues => yields_pure fun _ => ?_
  exact formed_initialized (.arrayInit element values heap) (Core.values_partsOf.mpr hvalues) nofun nofun ..

theorem ensures_filledValue {t : Surface.TypeExpr} {size value : Surface.Expr} {heap : Bool}
    {span : Span} : Ensures c (filledValue ask t size value heap span scope) fun _ e => e.Formed := by
  refine (ensures_objectType hv).bind fun element d _ _ => .unless ?_
  exact (ensures_value hv).bind fun count e _ hcount =>
    (ensures_of_preserves fun _ => preserves_fillSize _ _).bind fun known f _ _ =>
      (ensures_value hv).bind fun content g _ hcontent => .unless (yields_pure fun _ =>
        formed_initialized (.arrayFill ..) (Core.values_append.mpr ⟨hcount, hcontent⟩) nofun nofun ..)

/-! ## Calls -/

theorem ensures_argumentValues {params : List Ty} {args : List Surface.Expr} :
    Ensures c (argumentValues ask scope params args) fun _ values =>
      ∀ value ∈ values, Values value.parts := by
  induction args generalizing c params with
  | nil => exact yields_pure fun _ _ hv => by cases hv
  | cons arg rest ih =>
    exact (ensures_value hv).bind fun value d _ hvalue => ensures_consume.bind fun _ e _ _ =>
      ih.bind fun others f _ hothers => yields_pure fun _ => List.forall_mem_cons.mpr ⟨hvalue, hothers⟩

/-- What is called has the type of a function, so it stands for a value. -/
theorem ensures_callOf {callee : Core.Expr} {receiver : List Core.Expr} {args : List Surface.Expr}
    {span : Span} (hcallee : ∀ params variadic returns,
      callee.type.shape = .func params variadic returns → callee.Stands)
    (hreceiver : ∀ r ∈ receiver, Values r.parts) :
    Ensures c (callOf ask callee receiver args span scope) fun _ e => e.Formed := by
  unfold callOf
  split
  · rename_i hshape
    refine (ensures_of_preserves fun _ => preserves_requireArguments _ _ _ _ _).bind fun _ d _ _ =>
      (ensures_argumentValues hv).bind fun values e _ hvalues => yields_pure fun _ => ?_
    refine Core.Expr.formed_mk (Core.values_append.mpr ⟨(hcallee _ _ _ hshape).values ?_, ?_⟩) nofun nofun
    · rw [hshape]
      rfl
    · exact Core.values_partsOf.mpr (List.forall_mem_append.mpr ⟨hreceiver, hvalues⟩)
  · exact yields_reject _ _

theorem ensures_receiverArgument {method : GlobalId} {receiver : Receiver} {base : Surface.Expr}
    {member : Ident} (hreceiver : receiver.Stands) :
    Ensures c (receiverArgument ask method receiver base member) fun _ found =>
      Values found.1.parts := by
  cases receiver with
  | temporary value => exact yields_reject _ _
  | pointer value constant =>
    refine yields_get_bind (.unless ((ensures_answer hv).bind fun t d _ _ => ?_))
    extract_lets +onlyGivenNames first
    clear_value first
    split
    · exact Run.Yields.bind (Q := fun _ this => Values this.parts)
        (yields_ofExcept fun this hcoerced => Core.values_coerce hreceiver hcoerced)
        fun this e _ hthis => yields_pure fun _ => hthis
    · exact yields_pure fun _ => hreceiver

theorem ensures_memberCall {base : Surface.Expr} {member : Ident} {args : List Surface.Expr}
    {span : Span} :
    Ensures c (memberCall ask base member args span scope) fun _ e => e.Formed := by
  refine (ensures_receiverOf hv).bind fun found d _ hreceiver =>
    (ensures_structMember hv).bind fun kind e _ _ => ?_
  cases kind with
  | field index =>
    exact (ensures_fieldDenoted hreceiver).bind fun denoted f _ hdenoted =>
      (ensures_readDenoted hdenoted.1 hdenoted.2).bind fun callee g _ hcallee =>
        ensures_callOf hv (fun _ _ _ _ => hcallee) nofun
  | static function =>
    exact (ensures_answer hv).bind fun t f _ _ =>
      ensures_callOf hv (fun _ _ _ hshape => stands_function ⟨_, _, _, hshape⟩) nofun
  | method function =>
    exact (ensures_receiverArgument hv hreceiver).bind fun first f _ hfirst =>
      ensures_callOf hv (fun _ _ _ hshape => stands_function ⟨_, _, _, hshape⟩)
        fun r hr => List.mem_singleton.mp hr ▸ hfirst

theorem ensures_callValue {callee : Surface.Expr} {args : List Surface.Expr} {span : Span} :
    Ensures c (callValue ask callee args span scope) fun _ e => e.Formed := by
  unfold callValue
  split
  · exact ensures_memberCall hv
  · exact (ensures_value hv).bind fun value d _ hvalue =>
      ensures_callOf hv (fun _ _ _ _ => Core.Expr.stands_of_values hvalue) nofun

theorem ensures_macroArguments {params : List MacroParam} {args : List Surface.Expr} :
    Ensures c (macroArguments ask scope params args) fun _ values =>
      ∀ value ∈ values, Values value.parts := by
  induction args generalizing c params with
  | nil => exact yields_pure fun _ _ hv => by cases hv
  | cons arg rest ih =>
    exact (ensures_value hv).bind fun value d _ hvalue => .unless (ensures_consume.bind
      fun _ e _ _ => ih.bind fun others f _ hothers => yields_pure fun _ =>
        List.forall_mem_cons.mpr ⟨hvalue, hothers⟩)

/-- Only macros can be called that return nothing. -/
theorem ensures_macroValue {path : List Ident} {args : List Surface.Expr} {span : Span} :
    Ensures c (macroValue ask path args span scope) fun _ e => e.Formed := by
  refine (ensures_of_preserves fun _ =>
    (follows_namedMacro (valuing_following hv) _ _).preserves).bind fun id d _ _ => yields_get_bind ?_
  dsimp only
  split
  · exact yields_reject_bind _ _ _
  · rename_i hknown
    refine fun hd => ((ensures_of_preserves fun _ => preserves_requireArguments _ _ _ _ _).bind
      fun _ e _ _ => (ensures_macroArguments hv).bind fun values f _ hvalues => yields_pure fun _ => ?_) hd
    refine ⟨Core.values_partsOf.mpr hvalues, nofun, fun _ _ _ => ?_⟩
    obtain ⟨-, hvoid⟩ := hd.valued.silent_macroDef id (by simpa [Option.isSome_iff_ne_none] using hknown)
    show (d.macroDef id).returns.shape.isVoid = true
    rw [hvoid]
    rfl

/-! ## Operators -/

theorem ensures_unaryValue {op : Surface.UnaryOp} {operand : Surface.Expr} {expected : Option Ty}
    {span : Span} :
    Ensures c (unaryValue ask op operand expected span scope) fun _ e => e.Formed := by
  unfold unaryValue
  split
  · exact ensures_numberLiteral
  · exact (ensures_value hv).bind fun value d _ hvalue =>
      (ensures_of_preserves fun _ => preserves_foldUnary _ _ _).bind fun constant e _ _ =>
        yields_pure fun _ => Core.Expr.formed_mk hvalue nofun nofun

theorem ensures_logicalValue {op : Surface.BinaryOp} {left right : Surface.Expr} {span : Span} :
    Ensures c (logicalValue ask op left right span scope) fun _ e => e.Formed :=
  (ensures_value hv).bind fun _ _ _ ha => (ensures_value hv).bind fun _ _ _ hb =>
    yields_pure fun _ => Core.Expr.formed_mk (Core.values_append.mpr ⟨ha, hb⟩) nofun nofun

theorem ensures_operandValues {left right : Surface.Expr} {hint : Option Ty} :
    Ensures c (operandValues ask left right hint scope) fun _ operands =>
      Values operands.1.parts ∧ Values operands.2.parts := by
  unfold operandValues
  split
  · refine (ensures_value hv).bind fun b d _ hb => (ensures_value hv).bind fun a e _ ha => ?_
    exact Run.Yields.bind (Q := fun _ b' => Values b'.parts)
      (yields_ofExcept fun _ => Core.values_coerce hb) fun b' f _ hb' => yields_pure fun _ => ⟨ha, hb'⟩
  · exact (ensures_value hv).bind fun a d _ ha => (ensures_value hv).bind fun b e _ hb =>
      yields_pure fun _ => ⟨ha, hb⟩

theorem ensures_binaryValue {op : Surface.BinaryOp} {left right : Surface.Expr}
    {expected : Option Ty} {span : Span} :
    Ensures c (binaryValue ask op left right expected span scope) fun _ e => e.Formed := by
  refine (ensures_operandValues hv).bind fun operands d _ hoperands => .unless ?_
  exact (ensures_of_preserves fun _ => preserves_requireFit _ _ _).bind fun _ e _ _ =>
    yields_pure fun _ => Core.Expr.formed_mk (Core.values_append.mpr hoperands) nofun nofun

/-! ## Values -/

theorem ensures_referenceValue {target : Surface.Expr} {constant : Bool} {span : Span} :
    Ensures c (referenceValue ask target constant span scope) fun _ e => e.Formed := by
  refine Run.Yields.bind (Q := fun _ place => Values place.parts) (fun hc place d h => ?_)
    fun place d _ hplace => yields_pure fun _ => Core.Expr.formed_mk hplace nofun nofun
  obtain ⟨hd, hplace, -⟩ := ensures_denoted hv hc (requirePlace_eq_ok h)
  exact ⟨hd, hplace⟩

theorem ensures_sharedValue {owner : Surface.Expr} {span : Span} :
    Ensures c (sharedValue ask owner span scope) fun _ e => e.Formed := by
  refine (ensures_value hv).bind fun value d _ hvalue => ?_
  split
  · exact yields_pure fun _ => Core.Expr.formed_mk hvalue nofun nofun
  · exact yields_reject _ _

theorem ensures_rawValue {e : Surface.Expr} {expected : Option Ty} :
    Ensures c (rawValue ask e expected scope) fun _ v => v.Stands := by
  have hformed : Ensures c (rawValue ask e expected scope) fun _ v => v.Formed := by
    unfold rawValue
    extract_lets +onlyGivenNames span
    split
    · exact ensures_numberLiteral
    · exact yields_pure fun _ => Core.Expr.formed_mk Core.values_nil nofun nofun
    · exact yields_pure fun _ => Core.Expr.formed_mk Core.values_nil nofun nofun
    · exact ensures_callValue hv
    · exact ensures_macroValue hv
    · split
      · exact ensures_logicalValue hv
      · exact ensures_binaryValue hv
    · exact ensures_unaryValue hv
    · exact ensures_referenceValue hv
    · exact ensures_sharedValue hv
    · exact ensures_newValue hv
    · exact ensures_structValue hv
    · exact ensures_arrayValue hv
    · exact ensures_filledValue hv
    all_goals exact (ensures_denoted hv).bind fun _ _ _ hdenoted =>
      (ensures_readDenoted hdenoted.1 hdenoted.2).mono fun _ _ _ h => h.toFormed
  intro hc v d h
  obtain ⟨hd, hv'⟩ := hformed hc h
  exact ⟨hd, hv', fun k hk => (folds_rawValue hv.faithful hc.known h k hk).fits⟩

theorem ensures_checkValue {e : Surface.Expr} {expected : Option Ty} :
    Ensures c (checkValue ask e expected scope) fun _ v => Values v.parts := by
  refine (ensures_rawValue hv).bind fun value d _ hvalue => ?_
  dsimp only
  split
  · exact yields_reject_bind _ _ _
  · rename_i hvoid
    have hvalues := hvalue.values (by simpa using hvoid)
    split
    · exact yields_ofExcept fun _ => Core.values_coerce hvalues
    · exact yields_pure fun _ => hvalues

theorem ensures_checkDenoted {e : Surface.Expr} {write : Bool} :
    Ensures c (checkDenoted ask e write scope) fun _ denoted => denoted.Stands := by
  unfold checkDenoted
  split
  · exact ensures_pathDenoted hv
  · exact (ensures_pointeePlace hv).bind fun _ _ _ hplace => yields_pure fun _ => hplace
  · exact (ensures_elementPlace hv).bind fun _ _ _ hplace => yields_pure fun _ => hplace
  · exact ensures_memberDenoted hv
  · exact (ensures_rawValue hv).bind fun _ _ _ hvalue => yields_pure fun _ => hvalue

end

end Check

end OwnLang
