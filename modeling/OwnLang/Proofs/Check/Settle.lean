import Mathlib
import OwnLang.Proofs.Check.Registered
import OwnLang.Proofs.Check.Stable

/-!
# What successful checking has finished

A run that succeeds leaves nothing behind that it has begun: every struct that it declared is complete,
what was complete before still is, every function with a body that it declared waits, and all that it
returns is made of structs that are declared (`Check.Settling`). There is one lemma for each part of
checking. A run that fails does leave instances behind half resolved, so this is said of runs that
succeed only.
-/

namespace OwnLang

/-- An alias is complete, and the type that it stands for is known. -/
structure AliasDef.Named (a : AliasDef) : Prop where
  complete : a.state = .complete
  resolved : a.resolved.isSome

namespace Context

/-- All that a context mentions is declared, and its entities have symbols that are their own. -/
structure Coherent (c : Context) : Prop where
  closed : c.Closed
  labelled : c.Labelled c.instanceCount
  apart : c.Apart

/-- Nothing was left unfinished in between. -/
structure Settles (c d : Context) : Prop where
  packages : d.packages = c.packages
  aliasCount : d.aliases.size = c.aliases.size
  macroCount : d.macros.size = c.macros.size
  bodies : d.bodies = c.bodies
  entry : d.entry = c.entry
  structCount : c.structs.size ≤ d.structs.size
  fresh : ∀ id : StructId, c.structs.size ≤ id.index → id.index < d.structs.size →
    (d.struct id).state = .complete
  structs : ∀ id, (c.struct id).state = .complete → (d.struct id).state = .complete
  aliases : ∀ id, (c.typeAlias id).Named → (d.typeAlias id).Named
  macros : ∀ id, (c.macroDef id).state = .complete → (d.macroDef id).state = .complete
  queues : c.Queues d

variable {c d e : Context}

theorem Settles.refl (c : Context) : c.Settles c :=
  ⟨rfl, rfl, rfl, rfl, rfl, le_rfl, fun _ hnew hlt => absurd hlt (Nat.not_lt.mpr hnew), fun _ h => h,
    fun _ h => h, fun _ h => h, .refl c⟩

theorem Settles.trans (h : c.Settles d) (h' : d.Settles e) : c.Settles e where
  packages := h'.packages.trans h.packages
  aliasCount := h'.aliasCount.trans h.aliasCount
  macroCount := h'.macroCount.trans h.macroCount
  bodies := h'.bodies.trans h.bodies
  entry := h'.entry.trans h.entry
  structCount := h.structCount.trans h'.structCount
  fresh id hnew hlt := by
    rcases Nat.lt_or_ge id.index d.structs.size with hold | hlater
    · exact h'.structs id (h.fresh id hnew hold)
    · exact h'.fresh id hlater hlt
  structs id hid := h'.structs id (h.structs id hid)
  aliases id hid := h'.aliases id (h.aliases id hid)
  macros id hid := h'.macros id (h.macros id hid)
  queues := h.queues.trans h'.queues

theorem Settles.knows {α : Type} [Mentions α] {a : α} (h : c.Settles d) (ha : c.Knows a) :
    d.Knows a := ha.mono h.structCount

/-- The contexts have the same entities, and the same bodies are checked and wait. -/
structure Alike (c d : Context) : Prop where
  packages : d.packages = c.packages
  globals : d.globals = c.globals
  structs : d.structs = c.structs
  aliases : d.aliases = c.aliases
  macros : d.macros = c.macros
  templates : d.templates = c.templates
  bodies : d.bodies = c.bodies
  entry : d.entry = c.entry
  pending : d.pending = c.pending
  instanceCount : d.instanceCount = c.instanceCount

theorem alike_frame (c : Context) (frame : Option Frame) : c.Alike { c with frame } :=
  ⟨rfl, rfl, rfl, rfl, rfl, rfl, rfl, rfl, rfl, rfl⟩

theorem Alike.settles (h : c.Alike d) : c.Settles d where
  packages := h.packages
  aliasCount := congrArg Array.size h.aliases
  macroCount := congrArg Array.size h.macros
  bodies := h.bodies
  entry := h.entry
  structCount := (congrArg Array.size h.structs).ge
  fresh id hnew hlt :=
    absurd (hlt.trans_eq (congrArg Array.size h.structs)) (Nat.not_lt.mpr hnew)
  structs id hid := by
    rw [Check.struct_of_eq h.structs]
    exact hid
  aliases id hid := by
    unfold typeAlias
    rw [h.aliases]
    exact hid
  macros id hid := by
    unfold macroDef
    rw [h.macros]
    exact hid
  queues := queues_of_eq h.pending (congrArg Array.size h.globals) fun id => by
    rw [Check.global_of_eq h.globals]

theorem Alike.coherent (h : c.Alike d) (hc : c.Coherent) (hframe : d.Knows d.frame) :
    d.Coherent := by
  obtain ⟨_, packages, globals, structs, aliases, macros, templates, bodies, _, _, _, pending, _,
    instanceCount, _, _⟩ := d
  obtain ⟨rfl, rfl, rfl, rfl, rfl, rfl, rfl, rfl, rfl, rfl⟩ := h
  exact ⟨{ hc.closed with frame := hframe }, { hc.labelled with
    methods := fun id owner howner => { hc.labelled.methods id owner howner with } },
    ⟨hc.apart.structs, hc.apart.globals⟩⟩

/-! ## Changes of entities -/

theorem settles_modifyStruct {id : StructId} {change : StructDef → StructDef}
    (hstate : (c.struct id).state = .complete → (change (c.struct id)).state = .complete) :
    c.Settles (c.modifyStruct id change) where
  packages := rfl
  aliasCount := rfl
  macroCount := rfl
  bodies := rfl
  entry := rfl
  structCount := Array.size_modify.ge
  fresh _ hnew hlt := absurd (hlt.trans_eq Array.size_modify) (Nat.not_lt.mpr hnew)
  structs id' hid' := by
    rw [Check.struct_modifyStruct]
    split
    · rename_i hid
      obtain rfl : id = id' := congrArg StructId.mk hid.1
      exact hstate hid'
    · exact hid'
  aliases _ h := h
  macros _ h := h
  queues := queues_of_eq rfl rfl fun _ => rfl

/-- A change of the fields or of the state of a struct. -/
theorem Coherent.modifyStruct (h : c.Coherent) {id : StructId} {change : StructDef → StructDef}
    (hsymbol : (change (c.struct id)).symbol = (c.struct id).symbol)
    (hmembers : (change (c.struct id)).members = (c.struct id).members)
    (hknown : c.Knows (change (c.struct id)))
    (hstate : (change (c.struct id)).state = .complete → ((c.memberNames id).map (·.name)).Nodup) :
    Coherent (c.modifyStruct id change) := by
  have hsize : (c.modifyStruct id change).structs.size = c.structs.size := Array.size_modify
  have hkept (id') : ((c.modifyStruct id change).struct id').symbol = (c.struct id').symbol ∧
      ((c.modifyStruct id change).struct id').members = (c.struct id').members ∧
      (((c.modifyStruct id change).struct id').state = .complete →
        ((c.memberNames id').map (·.name)).Nodup) ∧
      c.Knows ((c.modifyStruct id change).struct id') := by
    rw [Check.struct_modifyStruct]
    split
    · rename_i hid
      obtain rfl : id = id' := congrArg StructId.mk hid.1
      exact ⟨hsymbol, hmembers, hstate, hknown⟩
    · exact ⟨rfl, rfl, h.labelled.unclashing id', h.closed.structs id'⟩
  refine ⟨⟨fun id => (h.closed.packages id).mono hsize.ge, fun id => (h.closed.globals id).mono hsize.ge,
    fun id => (hkept id).2.2.2.mono hsize.ge, fun id => (h.closed.aliases id).mono hsize.ge,
    fun id => (h.closed.macros id).mono hsize.ge, fun id => (h.closed.templates id).mono hsize.ge,
    h.closed.frame.mono hsize.ge⟩, { h.labelled with
      structs := fun id => by
        rw [(hkept id).1]
        exact h.labelled.structs id
      methods := fun id' owner howner => ?_
      members := fun id => by
        rw [(hkept id).2.1]
        exact h.labelled.members id
      unclashing := fun id' hcomplete => ?_ }, ⟨fun id id' => ?_, h.apart.globals⟩⟩
  · have howns := h.labelled.methods id' owner howner
    refine ⟨howns.declared.trans_eq hsize.symm, ?_, ?_, howns.word⟩
    · rw [(hkept owner).2.1]
      exact howns.member
    · rw [(hkept owner).1]
      exact howns.symbol
  · unfold memberNames
    rw [(hkept id').2.1]
    exact (hkept id').2.2.1 hcomplete
  · rw [hsize, (hkept id).1, (hkept id').1]
    exact h.apart.structs id id'

theorem hasBody_congr {g g' : Global} (hkind : g'.kind = g.kind) : g'.hasBody = g.hasBody := by
  unfold Global.hasBody Global.fnDecl?
  rw [hkind]

theorem isExternal_congr {g g' : Global} (hkind : g'.kind = g.kind) : g'.isExternal = g.isExternal := by
  unfold Global.isExternal Global.fnDecl?
  rw [hkind]

theorem owner?_congr {g g' : Global} (hkind : g'.kind = g.kind) : g'.owner? = g.owner? := by
  unfold Global.owner?
  rw [hkind]

/-- A change of the type, the value or the state of a global. -/
structure Retains (change : Global → Global) : Prop where
  kind : ∀ g, (change g).kind = g.kind
  symbol : ∀ g, (change g).symbol = g.symbol
  name : ∀ g, (change g).name = g.name

theorem Retains.global {change : Global → Global} (h : Retains change) (c : Context) (id id' : GlobalId) :
    ((c.modifyGlobal id change).global id').kind = (c.global id').kind ∧
    ((c.modifyGlobal id change).global id').symbol = (c.global id').symbol ∧
    ((c.modifyGlobal id change).global id').name = (c.global id').name := by
  rw [Check.global_modifyGlobal]
  split
  · exact ⟨h.kind _, h.symbol _, h.name _⟩
  · exact ⟨rfl, rfl, rfl⟩

theorem settles_modifyGlobal {id : GlobalId} {change : Global → Global} (hchange : Retains change) :
    c.Settles (c.modifyGlobal id change) where
  packages := rfl
  aliasCount := rfl
  macroCount := rfl
  bodies := rfl
  entry := rfl
  structCount := le_rfl
  fresh _ hnew hlt := absurd hlt (Nat.not_lt.mpr hnew)
  structs _ h := h
  aliases _ h := h
  macros _ h := h
  queues := queues_of_eq rfl Array.size_modify fun id' => hasBody_congr (hchange.global c id id').1

theorem Coherent.modifyGlobal (h : c.Coherent) {id : GlobalId} {change : Global → Global}
    (hchange : Retains change) (hknown : c.Knows (change (c.global id))) :
    Coherent (c.modifyGlobal id change) := by
  have howner (id') := owner?_congr (hchange.global c id id').1
  have hexternal (id') := isExternal_congr (hchange.global c id id').1
  have hpathed {id'} (hid' : (c.modifyGlobal id change).Pathed id') : c.Pathed id' := by
    obtain ⟨hlt, hprovided⟩ := hid'
    rw [howner, hexternal] at hprovided
    exact ⟨hlt.trans_eq Array.size_modify, hprovided⟩
  have hsymbol (id') := (hchange.global c id id').2.1
  have hname (id') := (hchange.global c id id').2.2
  refine ⟨{ h.closed with globals := fun id' => ?_ }, { h.labelled with
      globals := fun id' hid' => ?_
      externals := fun id' => ?_
      methods := fun id' owner hsome => ?_
      members := fun id' member hmember =>
        (h.labelled.members id' member hmember).trans_eq Array.size_modify.symm
      unclashing := fun id' hcomplete => ?_ }, ⟨h.apart.structs, fun id' id'' hid' hnone hid'' hnone' => ?_⟩⟩
  · change c.Knows _
    rw [Check.global_modifyGlobal]
    split
    · rename_i hid
      obtain rfl : id = id' := congrArg GlobalId.mk hid.1
      exact hknown
    · exact h.closed.globals id'
  · rw [howner, hsymbol]
    exact h.labelled.globals id' (hpathed hid')
  · rw [howner, hexternal, hsymbol]
    exact h.labelled.externals id'
  · have howns := h.labelled.methods id' owner ((howner id').symm.trans hsome)
    refine ⟨howns.declared, howns.member, ?_, ?_⟩
    · rw [hsymbol, hname]
      exact howns.symbol
    · rw [hname]
      exact howns.word
  · unfold memberNames
    simp only [hname]
    exact h.labelled.unclashing id' hcomplete
  · rw [howner] at hnone hnone'
    rw [hsymbol, hsymbol]
    exact h.apart.globals id' id'' (hpathed hid') hnone (hpathed hid'') hnone'

theorem typeAlias_modifyAlias (c : Context) (id other : AliasId) (change : AliasDef → AliasDef) :
    (c.modifyAlias id change).typeAlias other =
      if id.index = other.index ∧ other.index < c.aliases.size then change (c.typeAlias other)
      else c.typeAlias other := by
  unfold typeAlias modifyAlias
  rw [Array.getElem?_modify]
  by_cases hin : other.index < c.aliases.size
  · by_cases hid : id.index = other.index <;> simp [hin, hid]
  · simp [hin]

theorem settles_modifyAlias {id : AliasId} {change : AliasDef → AliasDef}
    (hstate : (c.typeAlias id).Named → (change (c.typeAlias id)).Named) :
    c.Settles (c.modifyAlias id change) where
  packages := rfl
  aliasCount := Array.size_modify
  macroCount := rfl
  bodies := rfl
  entry := rfl
  structCount := le_rfl
  fresh _ hnew hlt := absurd hlt (Nat.not_lt.mpr hnew)
  structs _ h := h
  aliases id' hid' := by
    rw [typeAlias_modifyAlias]
    split
    · rename_i hid
      obtain rfl : id = id' := congrArg AliasId.mk hid.1
      exact hstate hid'
    · exact hid'
  macros _ h := h
  queues := queues_of_eq rfl rfl fun _ => rfl

theorem Coherent.modifyAlias (h : c.Coherent) {id : AliasId} {change : AliasDef → AliasDef}
    (hknown : c.Knows (change (c.typeAlias id))) : Coherent (c.modifyAlias id change) where
  closed := { h.closed with
    aliases := fun id' => by
      change c.Knows _
      rw [typeAlias_modifyAlias]
      split
      · rename_i hid
        obtain rfl : id = id' := congrArg AliasId.mk hid.1
        exact hknown
      · exact h.closed.aliases id' }
  labelled := { h.labelled with
    methods := fun id owner howner => { h.labelled.methods id owner howner with } }
  apart := ⟨h.apart.structs, h.apart.globals⟩

theorem macroDef_modifyMacro (c : Context) (id other : MacroId) (change : MacroDef → MacroDef) :
    (c.modifyMacro id change).macroDef other =
      if id.index = other.index ∧ other.index < c.macros.size then change (c.macroDef other)
      else c.macroDef other := by
  unfold macroDef modifyMacro
  rw [Array.getElem?_modify]
  by_cases hin : other.index < c.macros.size
  · by_cases hid : id.index = other.index <;> simp [hin, hid]
  · simp [hin]

theorem settles_modifyMacro {id : MacroId} {change : MacroDef → MacroDef}
    (hstate : (change (c.macroDef id)).state = .complete) : c.Settles (c.modifyMacro id change) where
  packages := rfl
  aliasCount := rfl
  macroCount := Array.size_modify
  bodies := rfl
  entry := rfl
  structCount := le_rfl
  fresh _ hnew hlt := absurd hlt (Nat.not_lt.mpr hnew)
  structs _ h := h
  aliases _ h := h
  macros id' hid' := by
    rw [macroDef_modifyMacro]
    split
    · rename_i hid
      obtain rfl : id = id' := congrArg MacroId.mk hid.1
      exact hstate
    · exact hid'
  queues := queues_of_eq rfl rfl fun _ => rfl

theorem Coherent.modifyMacro (h : c.Coherent) {id : MacroId} {change : MacroDef → MacroDef}
    (hknown : c.Knows (change (c.macroDef id))) : Coherent (c.modifyMacro id change) where
  closed := { h.closed with
    macros := fun id' => by
      change c.Knows _
      rw [macroDef_modifyMacro]
      split
      · rename_i hid
        obtain rfl : id = id' := congrArg MacroId.mk hid.1
        exact hknown
      · exact h.closed.macros id' }
  labelled := { h.labelled with
    methods := fun id owner howner => { h.labelled.methods id owner howner with } }
  apart := ⟨h.apart.structs, h.apart.globals⟩

end Context

namespace Check

open Surface (Ident)

/-- A run that, if it succeeds, has finished what it began, and returns only what is declared. -/
def Settling {α : Type} [Mentions α] (c : Context) (x : Check α) : Prop :=
  c.Coherent → ∀ ⦃a d⦄, x c = .ok a d → c.Settles d ∧ d.Coherent ∧ d.Knows a

section

variable {α β : Type} [Mentions α] [Mentions β] {c d : Context}

theorem settling_pure {a : α} (h : c.Knows a) : Settling c (pure a : Check α) := by
  intro hc b d hrun
  cases hrun
  exact ⟨.refl c, hc, h⟩

theorem settling_fail (diagnostic : Diagnostic) : Settling c (Run.fail diagnostic : Check α) := by
  intro hc b d hrun
  cases hrun

theorem settling_reject (cause : Cause) (span : Span) :
    Settling c (Run.reject cause span : Check α) := settling_fail _

theorem settling_ofExcept {x : Except Diagnostic α} (h : ∀ a, x = .ok a → c.Knows a) :
    Settling c (Run.ofExcept x : Check α) := by
  intro hc b d hrun
  obtain ⟨hx, rfl⟩ := Run.ofExcept_eq_ok.mp hrun
  exact ⟨.refl d, hc, h b hx⟩

theorem Settling.bind {x : Check α} {f : α → Check β} (hx : Settling c x)
    (hf : ∀ a d, c.Settles d → d.Knows a → Settling d (f a)) : Settling c (x >>= f) := by
  intro hc b e hrun
  obtain ⟨a, d, ha, hb⟩ := Run.bind_eq_ok.mp hrun
  obtain ⟨hcd, hd, hknown⟩ := hx hc ha
  obtain ⟨hde, he, hresult⟩ := hf a d hcd hknown hd hb
  exact ⟨hcd.trans hde, he, hresult⟩

theorem Settling.map {x : Check α} (hx : Settling c x) {f : α → β}
    (hf : ∀ a d, c.Settles d → d.Knows a → d.Knows (f a)) : Settling c (f <$> x) := by
  rw [map_eq_pure_bind]
  exact hx.bind fun a d hcd ha => settling_pure (hf a d hcd ha)

/-- Nothing is run behind a failure. -/
theorem settling_fail_bind {γ : Type} (diagnostic : Diagnostic) (f : γ → Check β) :
    Settling c (Run.fail diagnostic >>= f) := by
  intro hc b d hrun
  cases hrun

theorem settling_reject_bind {γ : Type} (cause : Cause) (span : Span) (f : γ → Check β) :
    Settling c (Run.reject cause span >>= f) := settling_fail_bind _ f

theorem Settling.unless {p : Prop} [Decidable p] {cause : Cause} {span : Span} {f : PUnit → Check β}
    (hf : Settling c (f ⟨⟩)) :
    Settling c (if p then Run.reject cause span >>= f else f ⟨⟩) := by
  split
  · exact settling_reject_bind _ _ f
  · exact hf

/-- What looks at the state may rely on it. -/
theorem settling_get_bind {f : Context → Check β} (h : c.Coherent → Settling c (f c)) :
    Settling c (get >>= f) := fun hc => h hc hc

/-- A change of the state. -/
theorem settling_modify_bind {change : Context → Context} {f : PUnit → Check β}
    (hchange : c.Coherent → c.Settles (change c) ∧ (change c).Coherent)
    (hf : Settling (change c) (f ⟨⟩)) : Settling c (modify change >>= f) := by
  intro hc b e hrun
  obtain ⟨hsettles, hcoherent⟩ := hchange hc
  obtain ⟨hde, he, hresult⟩ := hf hcoherent hrun
  exact ⟨hsettles.trans hde, he, hresult⟩

/-- A step that leaves the state as it is. -/
theorem Settling.of_preserves {x : Check α} (h : x.Preserves (· = c))
    (hknown : c.Coherent → ∀ a, x c = .ok a c → c.Knows a) : Settling c x := by
  intro hc a d hrun
  obtain rfl : d = c := h (Run.ends_of_ok hrun) rfl
  exact ⟨.refl d, hc, hknown hc a hrun⟩

theorem Settling.detached {work : Check α} (h : ∀ d, c.Settles d → Settling d work) :
    Settling c (detached work) := by
  intro hc a d hrun
  obtain ⟨e, hwork, rfl⟩ := Run.andFinally_eq_ok.mp hrun
  obtain ⟨hsettles, he, hresult⟩ := h _ (c.alike_frame none).settles
    ((c.alike_frame none).coherent hc Context.knows_none) hwork
  have hall := ((c.alike_frame none).settles.trans hsettles).trans (e.alike_frame c.frame).settles
  exact ⟨hall, (e.alike_frame c.frame).coherent he (hall.knows hc.closed.frame), hresult⟩

theorem settling_mapM {γ : Type} {f : γ → Check β} {l : List γ}
    (h : ∀ d, c.Settles d → ∀ a ∈ l, Settling d (f a)) : Settling c (l.mapM f) := by
  induction l generalizing c with
  | nil => exact settling_pure Context.knows_nil
  | cons a rest ih =>
    rw [List.mapM_cons]
    refine (h c (.refl c) a List.mem_cons_self).bind fun b d hcd hb => ?_
    refine (ih fun e hde a' ha' => h e (hcd.trans hde) a' (List.mem_cons_of_mem _ ha')).bind
      fun bs e hde hbs => settling_pure ?_
    exact Context.knows_cons.mpr ⟨hde.knows hb, hbs⟩

end

/-- Answers that finish what they begin, and what they were asked for. -/
structure Settler (ask : Asker) : Prop where
  answers : ∀ {q : Query} {c : Context}, c.Knows q → Settling c (ask q)
  layout : ∀ {id usedAt} {c d : Context}, c.Coherent → ask (.layout id usedAt) c = .ok ⟨⟩ d →
    (d.struct id).state = .complete
  typeAlias : ∀ {id usedAt t} {c d : Context}, c.Coherent → id.index < c.aliases.size →
    ask (.typeAlias id usedAt) c = .ok t d → (d.typeAlias id).Named

variable {ask : Asker} {c : Context} {scope : Scope}

theorem settling_requireValueType (t : Ty) (span : Span) : Settling c (requireValueType t span) := by
  unfold requireValueType
  split
  · exact settling_reject _ _
  · exact settling_pure (Context.knows_plain _)

section

variable (h : Settler ask)

include h

theorem settling_value {e : Surface.Expr} {expected : Option Ty} (hexpected : c.Knows expected)
    (hscope : c.Knows scope) : Settling c (ask (.value e expected scope) : Check Core.Expr) :=
  h.answers (Context.knows_queryValue.mpr ⟨hexpected, hscope⟩)

theorem settling_denoted {e : Surface.Expr} {write : Bool} (hscope : c.Knows scope) :
    Settling c (ask (.denoted e write scope) : Check Denoted) := h.answers hscope

theorem settling_type {t : Surface.TypeExpr} (hscope : c.Knows scope) :
    Settling c (ask (.type t scope) : Check Ty) := h.answers hscope

theorem settling_global {id : GlobalId} {usedAt : Span} :
    Settling c (ask (.global id usedAt) : Check Ty) := h.answers Context.knows_queryGlobal

theorem settling_layout {id : StructId} {usedAt : Span} :
    Settling c (ask (.layout id usedAt) : Check Unit) := h.answers Context.knows_queryLayout

theorem settling_typeAlias {id : AliasId} {usedAt : Span} :
    Settling c (ask (.typeAlias id usedAt) : Check Ty) := h.answers Context.knows_queryAlias

theorem settling_complete (t : Ty) (span : Span) : Settling c (ask.complete t span) := by
  unfold Asker.complete
  split
  · exact settling_layout h
  · exact settling_pure (Context.knows_plain _)

theorem settling_writtenType (t : Option Surface.TypeExpr) (hscope : c.Knows scope) :
    Settling c ( resolveAnnotation ask t scope) := by
  unfold resolveAnnotation
  split
  · exact settling_pure Context.knows_none
  · exact (settling_type h hscope).map fun _ _ _ ht => Context.knows_some.mpr ht

theorem settling_types (written : List Surface.TypeExpr) (hscope : c.Knows scope) :
    Settling c (ask.types written scope) :=
  settling_mapM fun _ hd _ _ => settling_type h (hd.knows hscope)

/-! ## Structs -/

theorem settling_resolveField {before : List Field} {decl : Surface.VarDecl}
    (hscope : c.Knows scope) : Settling c (resolveField ask scope before decl) := by
  unfold resolveField
  extract_lets +onlyGivenNames declare
  have hdeclare : Settling c (declare ⟨⟩) := by
    refine (settling_writtenType h _ hscope).bind fun declared d hcd hdeclared => ?_
    extract_lets +onlyGivenNames withDefault
    have hdefault (default) (e : Context) (hde : d.Settles e) (hknown : e.Knows default) :
        Settling e (withDefault default) := by
      dsimp -zeta only [withDefault]
      extract_lets +onlyGivenNames withType
      have htype (t : Ty) (ht : e.Knows t) : Settling e (withType t) := by
        refine (settling_requireValueType t _).bind fun _ f hef _ =>
          (settling_complete h t _).bind fun _ g hfg _ => .unless (settling_pure ?_)
        exact Context.knows_fieldDef.mpr
          ⟨hfg.knows (hef.knows ht), hfg.knows (hef.knows hknown)⟩
      split
      · exact htype _ (hde.knows (Context.knows_some.mp hdeclared))
      · exact htype _ (Context.knows_some.mp hknown).type
      · exact settling_reject_bind _ _ _
    split
    · exact hdefault _ d (.refl d) Context.knows_none
    · refine .bind ?_ fun default e hde hknown => hdefault default e hde hknown
      exact (settling_value h hdeclared (hcd.knows hscope)).map fun _ _ _ hv =>
        Context.knows_some.mpr hv
  split
  · exact settling_fail_bind _ _
  · exact hdeclare

theorem settling_resolveFields {decls : List Surface.VarDecl} {done : List Field}
    (hdone : c.Knows done) (hscope : c.Knows scope) :
    Settling c (resolveFields ask scope done decls) := by
  induction decls generalizing c done with
  | nil => exact settling_pure hdone
  | cons decl rest ih =>
    refine (settling_resolveField h hscope).bind fun next d hcd hnext => ?_
    exact ih (Context.knows_append.mpr ⟨hcd.knows hdone, Context.knows_cons.mpr
      ⟨hnext, Context.knows_nil⟩⟩) (hcd.knows hscope)

end

end Check

end OwnLang
