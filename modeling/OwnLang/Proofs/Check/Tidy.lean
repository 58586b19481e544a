import Mathlib
import OwnLang.Proofs.Check.Advance
import OwnLang.Proofs.Check.Body
import OwnLang.Proofs.Check.Folding

/-!
# Tidy frames

Every local stands in one open block at most, in the one whose depth it was declared at, and behind
all that were declared later; and no local owns a value that is copyable (`Frame.Tidy`). Statements
keep frames tidy, and the loops around them told apart by their numbers (`tidying_answerTo`).
-/

namespace OwnLang

namespace Frame

/-- Locals are declared in one block each, in the order of their numbers. -/
structure Layered (f : Frame) : Prop where
  declared : ∀ id ∈ f.stack.flatten, id.index < f.locals.size
  ordered : f.stack.flatten.Pairwise fun a b => b.index < a.index
  placed : ∀ ids rest, ids :: rest <:+ f.stack → ∀ id ∈ ids, (f.localAt id).depth = rest.length

/-- Locals are declared in one block each, and those that own a value have unique types. -/
structure Tidy (f : Frame) : Prop where
  declared : ∀ id ∈ f.stack.flatten, id.index < f.locals.size
  ordered : f.stack.flatten.Pairwise fun a b => b.index < a.index
  placed : ∀ ids rest, ids :: rest <:+ f.stack → ∀ id ∈ ids, (f.localAt id).depth = rest.length
  unique : ∀ id, (f.localAt id).ownership = .owns → (f.localAt id).type.shape.isCopyable = false

variable {f g : Frame}

theorem Tidy.layered (h : f.Tidy) : f.Layered := ⟨h.declared, h.ordered, h.placed⟩

theorem Layered.tidy (h : f.Layered)
    (hunique : ∀ id, (f.localAt id).ownership = .owns → (f.localAt id).type.shape.isCopyable = false) :
    f.Tidy := ⟨h.declared, h.ordered, h.placed, hunique⟩

@[simp] theorem length_stack (f : Frame) : f.stack.length = f.height := List.length_map ..

@[simp] theorem stack_openBlock (f : Frame) : f.openBlock.stack = [] :: f.stack := rfl

@[simp] theorem stack_closed (f : Frame) : (Check.closed f).stack = f.stack.tail := List.map_tail ..

theorem stack_of_parks (h : List.Forall₂ BlockFrame.Parks f.blocks g.blocks) : g.stack = f.stack := by
  unfold stack
  generalize f.blocks = bs at h ⊢
  generalize g.blocks = bs' at h ⊢
  induction h with
  | nil => rfl
  | cons hb _ ih => rw [List.map_cons, List.map_cons, hb.locals, ih]

theorem entry_localAt (f : Frame) (id : LocalId) :
    (f.localAt id).entry = (f.locals.map Local.entry)[id.index]?.getD (default : Local).entry := by
  rw [localAt, Array.getElem?_map, Option.getD_map]

theorem map_entry_eq (hsize : g.locals.size = f.locals.size)
    (hlocal : ∀ id, (g.localAt id).entry = (f.localAt id).entry) :
    g.locals.map Local.entry = f.locals.map Local.entry := by
  apply Array.ext
  · rw [Array.size_map, Array.size_map, hsize]
  · intro i hi hi'
    rw [Array.size_map] at hi hi'
    have h := hlocal ⟨i⟩
    simpa only [localAt, Array.getElem?_eq_getElem hi, Array.getElem?_eq_getElem hi',
      Option.getD_some, Array.getElem_map] using h

theorem Moves.outline (h : f.Moves g) : g.outline = f.outline := by
  have hentries := map_entry_eq h.size fun id => by
    rw [h.localAt id]
    rfl
  unfold Frame.outline loopDepths
  rw [stack_of_parks h.blocks, h.loops, hentries]

/-! ## What keeps a frame tidy -/

/-- What is closed, from the innermost block on, leaves what is declared around it. -/
theorem Layered.of_suffix (h : f.Layered) (hstack : g.stack <:+ f.stack)
    (hentries : g.locals.map Local.entry = f.locals.map Local.entry) : g.Layered := by
  have hsub := hstack.sublist.flatten
  have hsize := congrArg Array.size hentries
  rw [Array.size_map, Array.size_map] at hsize
  refine ⟨fun id hid => ?_, h.ordered.sublist hsub, fun ids rest hsuffix id hid => ?_⟩
  · rw [hsize]
    exact h.declared id (hsub.subset hid)
  · have hentry : (g.localAt id).entry = (f.localAt id).entry := by
      rw [entry_localAt, entry_localAt, hentries]
    exact (congrArg Prod.snd hentry).trans (h.placed ids rest (hsuffix.trans hstack) id hid)

theorem Tidy.congr (h : f.Tidy) (hstack : g.stack = f.stack) (hlocals : g.locals = f.locals) :
    g.Tidy := by
  refine (h.layered.of_suffix (hstack ▸ List.suffix_rfl) (by rw [hlocals])).tidy ?_
  unfold localAt
  rw [hlocals]
  exact h.unique

theorem Tidy.moves (h : f.Tidy) (hfg : f.Moves g) : g.Tidy := by
  have hstack : g.stack = f.stack := congrArg (·.1) hfg.outline
  have hentries : g.locals.map Local.entry = f.locals.map Local.entry := congrArg (·.2.2) hfg.outline
  refine (h.layered.of_suffix (hstack ▸ List.suffix_rfl) hentries).tidy fun id howns => ?_
  rw [hfg.localAt id]
  rcases hfg.ownership id with hsame | ⟨span, hmoved⟩
  · exact h.unique id (hsame ▸ howns)
  · rw [howns] at hmoved
    cases hmoved

theorem Layered.openBlock (h : f.Layered) : f.openBlock.Layered := by
  refine ⟨h.declared, h.ordered, fun ids rest hsuffix id hid => ?_⟩
  rcases List.suffix_cons_iff.mp hsuffix with hall | hsuffix
  · cases hall
    cases hid
  · exact h.placed ids rest hsuffix id hid

theorem tidy_openBlock (h : f.Tidy) : f.openBlock.Tidy := h.layered.openBlock.tidy h.unique

theorem closed_suffix (f : Frame) : (Check.closed f).stack <:+ f.stack := by
  rw [stack_closed]
  exact List.tail_suffix _

theorem tidy_closed (h : f.Tidy) : (Check.closed f).Tidy := by
  have hlayered : (Check.closed f).Layered := h.layered.of_suffix f.closed_suffix rfl
  exact hlayered.tidy h.unique

@[simp] theorem locals_declare (f : Frame) (l : Local) :
    (Check.declare l f).locals = f.locals.push l := by simp [Check.declare]

theorem localAt_declare_of_lt {l : Local} {id : LocalId} (hid : id.index < f.locals.size) :
    (Check.declare l f).localAt id = f.localAt id := by
  rw [localAt, locals_declare]
  exact localAt_push_of_lt hid

theorem localAt_declare_size (f : Frame) (l : Local) :
    (Check.declare l f).localAt ⟨f.locals.size⟩ = l := by simp [localAt]

theorem stack_declare (f : Frame) (l : Local) :
    (Check.declare l f).stack = f.stack.modifyHead (⟨f.locals.size⟩ :: ·) := by
  unfold Check.declare stack modifyTop
  cases hblocks : f.blocks <;> simp

/-- A local that owns a value is declared with a type that is not copyable. -/
theorem Tidy.unique_declare (h : f.Tidy) {l : Local}
    (hunique : l.ownership = .owns → l.type.shape.isCopyable = false) (id : LocalId)
    (howns : ((Check.declare l f).localAt id).ownership = .owns) :
    ((Check.declare l f).localAt id).type.shape.isCopyable = false := by
  rcases Nat.lt_trichotomy id.index f.locals.size with hlt | heq | hgt
  · rw [localAt_declare_of_lt hlt] at howns ⊢
    exact h.unique id howns
  · obtain rfl : id = ⟨f.locals.size⟩ := congrArg LocalId.mk heq
    rw [localAt_declare_size] at howns ⊢
    exact hunique howns
  · rw [localAt, locals_declare, Array.getElem?_eq_none (by simp; omega)] at howns
    cases howns

theorem Layered.declare (h : f.Layered) {l : Local} (hdepth : l.depth = f.height - 1) :
    (Check.declare l f).Layered := by
  have hstack := stack_declare f l
  have hbefore := h.declared
  have hordered := h.ordered
  have hheight := f.length_stack
  cases hblocks : f.stack with
  | nil =>
    rw [hblocks, List.modifyHead_nil] at hstack
    refine ⟨?_, ?_, ?_⟩ <;> rw [hstack]
    · exact fun _ hid => absurd hid List.not_mem_nil
    · exact .nil
    · exact fun _ _ hsuffix => absurd (List.suffix_nil.mp hsuffix) (List.cons_ne_nil _ _)
  | cons block rest =>
    rw [hblocks] at hbefore hordered hheight
    rw [hblocks, List.modifyHead_cons] at hstack
    have hold {ids : List LocalId} (hids : ids ∈ block :: rest) {id : LocalId} (hid : id ∈ ids) :
        (Check.declare l f).localAt id = f.localAt id :=
      localAt_declare_of_lt (hbefore id (List.mem_flatten_of_mem hids hid))
    refine ⟨fun id hid => ?_, ?_, fun ids behind hsuffix id hid => ?_⟩
    · rw [locals_declare, Array.size_push]
      rw [hstack] at hid
      rcases List.mem_cons.mp hid with rfl | hid
      · exact Nat.lt_succ_self _
      · exact Nat.lt_succ_of_lt (hbefore id hid)
    · rw [hstack]
      exact List.pairwise_cons.mpr ⟨hbefore, hordered⟩
    · rw [hstack] at hsuffix
      rcases List.suffix_cons_iff.mp hsuffix with hall | hsuffix
      · obtain ⟨rfl, rfl⟩ := List.cons.inj hall
        rcases List.mem_cons.mp hid with rfl | hid
        · rw [localAt_declare_size, hdepth, ← hheight]
          rfl
        · rw [hold List.mem_cons_self hid]
          exact h.placed block _ (hblocks ▸ List.suffix_rfl) id hid
      · rw [hold (List.mem_cons_of_mem _ (hsuffix.subset List.mem_cons_self)) hid]
        exact h.placed ids behind (hblocks ▸ hsuffix.trans (List.suffix_cons _ _)) id hid

theorem tidy_declare (h : f.Tidy) {l : Local} (hdepth : l.depth = f.height - 1)
    (hunique : l.ownership = .owns → l.type.shape.isCopyable = false) :
    (Check.declare l f).Tidy := (h.layered.declare hdepth).tidy (h.unique_declare hunique)

/-- Storing a value changes nothing of what is declared. -/
theorem outline_own (f : Frame) (id : LocalId) : (Check.own id f).outline = f.outline :=
  (outline_modifyLocal _ id _).trans (f.outline_modifyTop fun _ => rfl)

theorem tidy_own (h : f.Tidy) {id : LocalId} (htype : (f.localAt id).type.shape.isCopyable = false) :
    (Check.own id f).Tidy := by
  have hstack : (Check.own id f).stack = f.stack := congrArg (·.1) (f.outline_own id)
  have hentries : (Check.own id f).locals.map Local.entry = f.locals.map Local.entry :=
    congrArg (·.2.2) (f.outline_own id)
  have hlocal (other : LocalId) : (Check.own id f).localAt other =
      if id.index = other.index ∧ other.index < f.locals.size then
        { f.localAt other with ownership := .owns } else f.localAt other := by
    unfold Check.own
    rw [modifyLocal_localAt, modifyTop_locals, modifyTop_localAt]
  refine (h.layered.of_suffix (hstack ▸ List.suffix_rfl) hentries).tidy fun other howns => ?_
  rw [hlocal] at howns ⊢
  split at howns
  · rename_i hsame
    rw [if_pos hsame]
    obtain rfl : id = other := congrArg LocalId.mk hsame.1
    exact htype
  · rename_i hother
    rw [if_neg hother]
    exact h.unique other howns

end Frame

namespace Check

variable {ask : Asker} {scope : Scope} {c d : Context}

/-- A function is open. Its frame is tidy, and its loops are told apart by their numbers. -/
structure InFunction (c : Context) : Prop where
  frame : c.frame.isSome = true
  tidy : c.here.Tidy
  numbered : ∀ loop ∈ c.here.loops, loop.id.index ≤ c.loopCount
  distinct : (c.here.loops.map (·.id)).Nodup
  deep : ∀ loop ∈ c.here.loops, loop.bodyDepth ≤ c.here.height

namespace InFunction

theorem here_reframe (hc : InFunction c) (change : Frame → Frame) :
    (c.reframe change).here = change c.here := by
  obtain ⟨f, hf⟩ := Option.isSome_iff_exists.mp hc.frame
  unfold Context.reframe Context.here
  rw [hf]
  rfl

/-- What a statement does keeps a function open, as far as it keeps the frame tidy. -/
theorem advances (hc : InFunction c) (h : c.Steps Frame.Advances d) (ht : d.here.Tidy) :
    InFunction d := by
  have hadvances := h.here (.refl _)
  obtain ⟨f, hf⟩ := Option.isSome_iff_exists.mp hc.frame
  obtain ⟨g, hg, -⟩ := h.exists hf
  have hbefore {loop : LoopFrame} (hloop : loop ∈ d.here.loops) :
      ∃ loop' ∈ c.here.loops, loop'.Grows loop := by
    obtain ⟨i, hi, rfl⟩ := List.getElem_of_mem hloop
    have hi' : i < c.here.loops.length := by rw [hadvances.loops.length_eq]; exact hi
    exact ⟨_, List.getElem_mem hi', (List.forall₂_iff_get.mp hadvances.loops).2 i hi' hi⟩
  refine ⟨by rw [hg]; rfl, ht, fun loop hloop => ?_, ?_, fun loop hloop => ?_⟩
  · obtain ⟨loop', hloop', hgrows⟩ := hbefore hloop
    rw [hgrows.id]
    exact (hc.numbered loop' hloop').trans h.loopCount
  · rw [Frame.loops_ids hadvances.loops]
    exact hc.distinct
  · obtain ⟨loop', hloop', hgrows⟩ := hbefore hloop
    rw [hgrows.bodyDepth, hadvances.height]
    exact hc.deep loop' hloop'

theorem moves (hc : InFunction c) (h : c.Steps Frame.Moves d) : InFunction d :=
  hc.advances h.rests.advances (hc.tidy.moves (h.here (.refl _)))

/-- A change of the frame that keeps what its blocks declare and its loops. -/
theorem reframe (hc : InFunction c) {change : Frame → Frame}
    (hstack : (change c.here).stack = c.here.stack) (hlocals : (change c.here).locals = c.here.locals)
    (hloops : (change c.here).loops = c.here.loops) : InFunction (c.reframe change) := by
  have hhere := hc.here_reframe change
  refine ⟨?_, ?_, ?_, ?_, ?_⟩
  · unfold Context.reframe
    rw [Option.isSome_map]
    exact hc.frame
  · rw [hhere]
    exact hc.tidy.congr hstack hlocals
  · rw [hhere, hloops]
    exact hc.numbered
  · rw [hhere, hloops]
    exact hc.distinct
  · rw [hhere, hloops, ← Frame.length_stack, hstack, Frame.length_stack]
    exact hc.deep

theorem warned (hc : InFunction c) (warnings : Array Warning) : InFunction { c with warnings } :=
  ⟨hc.frame, hc.tidy, hc.numbered, hc.distinct, hc.deep⟩

/-- A region that no execution reaches is in the same function. -/
theorem region (hc : InFunction c) (warnings : Array Warning) :
    InFunction ({ c with warnings }.reframe fun f => { f with unreachable := f.unreachable + 1 }) :=
  (hc.warned warnings).reframe rfl rfl rfl

theorem openBlock (hc : InFunction c) : InFunction (c.reframe Frame.openBlock) := by
  have hhere := hc.here_reframe Frame.openBlock
  refine ⟨?_, ?_, ?_, ?_, ?_⟩
  · unfold Context.reframe
    rw [Option.isSome_map]
    exact hc.frame
  · rw [hhere]
    exact Frame.tidy_openBlock hc.tidy
  · rw [hhere]
    exact hc.numbered
  · rw [hhere]
    exact hc.distinct
  · rw [hhere]
    exact fun loop hloop => (hc.deep loop hloop).trans (Nat.le_succ _)

theorem counted (hc : InFunction c) : InFunction { c with loopCount := c.loopCount + 1 } :=
  ⟨hc.frame, hc.tidy, fun loop hloop => Nat.le_succ_of_le (hc.numbered loop hloop), hc.distinct,
    hc.deep⟩

/-- The block of a loop's header is in the function of the loop. -/
theorem header (hc : InFunction c) : InFunction (header c) := hc.counted.openBlock

theorem here_header (hc : InFunction c) : (Check.header c).here = c.here.openBlock :=
  hc.counted.here_reframe _

/-- A loop's body is in the function of its header. -/
theorem enter (hc : InFunction c) {id : LoopId} (hid : ∀ loop ∈ c.here.loops, loop.id.index < id.index)
    (hcount : id.index ≤ c.loopCount) (form : LoopForm) :
    InFunction (c.reframe (form.enter id)) := by
  have hhere := hc.here_reframe (form.enter id)
  refine ⟨?_, ?_, ?_, ?_, ?_⟩
  · unfold Context.reframe
    rw [Option.isSome_map]
    exact hc.frame
  · rw [hhere]
    exact hc.tidy.congr rfl rfl
  · rw [hhere]
    intro loop hloop
    rcases List.mem_cons.mp hloop with rfl | hloop
    · exact hcount
    · exact hc.numbered loop hloop
  · rw [hhere]
    refine List.nodup_cons.mpr ⟨fun hmem => ?_, hc.distinct⟩
    obtain ⟨loop, hloop, hsame⟩ := List.mem_map.mp hmem
    have hlt := hid loop hloop
    rw [hsame] at hlt
    exact Nat.lt_irrefl _ hlt
  · rw [hhere]
    intro loop hloop
    rcases List.mem_cons.mp hloop with rfl | hloop
    · exact le_rfl
    · exact hc.deep loop hloop

end InFunction

/-! ## Locals as locations -/

/-- A location that is a local's has the type of the local. -/
theorem slot_type {e : Surface.Expr} {write : Bool} {place : Core.Place} {id : LocalId}
    (h : checkDenoted ask e write scope c = .ok (.place place) d) (hkind : place.kind = .slot id) :
    place.type = (d.here.localAt id).type := by
  unfold checkDenoted at h
  cases hform : e.kind <;> simp only [hform] at h
  case path =>
    obtain ⟨referent, c₁, -, hrest⟩ := Run.bind_eq_ok.mp h
    cases referent with
    | slot other =>
      obtain ⟨found, c₂, hfound, hreturn⟩ := Run.bind_eq_ok.mp hrest
      obtain ⟨rfl, rfl⟩ := slotPlace_eq_ok hfound
      cases hreturn
      cases hkind
      rfl
    | global other =>
      obtain ⟨t, c₂, -, hrest⟩ := Run.bind_eq_ok.mp hrest
      obtain ⟨c₃, c₄, -, hreturn⟩ := Run.bind_eq_ok.mp hrest
      split at hreturn <;> cases hreturn
      cases hkind
    | field this other index =>
      obtain ⟨found, c₂, hfound, hreturn⟩ := Run.bind_eq_ok.mp hrest
      obtain ⟨f, c₃, -, hfield⟩ := Run.bind_eq_ok.mp hfound
      obtain ⟨field, c₄, -, hplace⟩ := Run.bind_eq_ok.mp hfield
      cases hplace
      cases hreturn
      cases hkind
  case deref =>
    obtain ⟨found, c₁, hfound, hreturn⟩ := Run.bind_eq_ok.mp h
    cases hreturn
    exact absurd hkind ((pointeePlace_anonymous _ _ _ hfound).1 id)
  case index =>
    obtain ⟨found, c₁, hfound, hreturn⟩ := Run.bind_eq_ok.mp h
    cases hreturn
    exact absurd hkind ((elementPlace_anonymous _ _ _ _ hfound).1 id)
  case member => exact absurd hkind ((memberDenoted_anonymous _ _ _ _ h).1 id)
  all_goals
    obtain ⟨value, c₁, -, hreturn⟩ := Run.bind_eq_ok.mp h
    cases hreturn

/-! ## Statements -/

/-- The answers to queries keep functions tidy. -/
structure Tidying (ask : Asker) : Prop where
  steady : Steady ask
  denoted : ∀ {e write scope c d place id},
    ask (.denoted e write scope) c = .ok (.place place) d → place.kind = .slot id →
      place.type = (d.here.localAt id).type
  stmt : ∀ {s scope c d out}, ask (.stmt s scope) c = .ok out d → InFunction c → InFunction d
  block : ∀ {b scope c d out}, ask (.block b scope) c = .ok out d → InFunction c → InFunction d

theorem tidy_settleMoves {block : BlockFrame} (h : settleMoves block c = .ok ⟨⟩ d)
    (hc : c.here.Tidy) : d.here.Tidy := by
  rcases settleMoves_eq_ok h with ⟨-, rfl⟩ | ⟨-, ⟨-, -, rfl⟩ | ⟨-, rfl⟩⟩
  · exact hc
  · exact hc
  · rw [c.here_reframe rfl]
    exact hc.congr (Frame.stack_modifyTop (by intro b; rfl)) (Frame.modifyTop_locals _ _)

/-- A jump hands on moves and marks its loop, and keeps what is declared. -/
theorem jump_keeps {jump : Jump} {i : Nat} {loop : LoopFrame} {c₁ : Context} (hc : InFunction c)
    (h : c.here.unreachable = 0 ∧ (∃ carried, carryMoves (jumpLeaves c.here jump i) jump loop =
        .ok carried ∧ c₁ = c.reframe fun _ => carried) ∨ c.here.unreachable ≠ 0 ∧ c₁ = c) :
    c₁.here.stack = c.here.stack ∧ c₁.here.locals = c.here.locals := by
  rcases h with ⟨-, carried, hcarried, rfl⟩ | ⟨-, rfl⟩
  · rw [hc.here_reframe]
    have hleaves : (jumpLeaves c.here jump i).stack = c.here.stack ∧
        (jumpLeaves c.here jump i).locals = c.here.locals := by
      unfold jumpLeaves
      split <;> exact ⟨rfl, rfl⟩
    unfold carryMoves at hcarried
    dsimp only at hcarried
    split at hcarried
    · cases hcarried
    · cases hcarried
      exact hleaves
    · cases hcarried
      split
      · exact hleaves
      · exact ⟨(Frame.stack_modifyBlock _ (by intro b; rfl)).trans hleaves.1, hleaves.2⟩
  · exact ⟨rfl, rfl⟩

theorem inFunction_jumpStmt {jump : Jump} {label : Option Surface.Ident} {span : Span}
    {kind : Core.StmtKind} (h : jumpStmt jump label span c = .ok kind d) (hc : InFunction c) :
    InFunction d := by
  refine hc.advances (advances_jumpStmt h) ?_
  obtain ⟨i, loop, c₁, -, hcarried, -, rfl⟩ := jumpStmt_eq_ok h
  obtain ⟨hstack, hlocals⟩ := jump_keeps hc hcarried
  rw [c₁.here_reframe rfl]
  refine hc.tidy.congr ?_ ?_
  · rw [Frame.stack_modifyTop (by intro b; rfl), hstack]
  · rw [Frame.modifyTop_locals, hlocals]

theorem inFunction_declareLocal {name : Surface.Ident} {t : Ty} {constant : Bool}
    {value : Option Const} {id : LocalId} (h : declareLocal name t constant value c = .ok id d)
    (hc : InFunction c) : InFunction d := by
  obtain ⟨-, rfl⟩ := declareLocal_eq_ok h
  refine hc.advances (c.steps_reframe_here (c.here.advances_declare rfl)) ?_
  rw [hc.here_reframe]
  refine Frame.tidy_declare hc.tidy rfl ?_
  dsimp only
  split
  · exact nofun
  · rename_i hunique
    exact fun _ => by simpa using hunique

section

variable (ht : Tidying ask)

include ht

theorem inFunction_unreachableStmts {stmts : List Surface.Stmt} {out : List Core.Stmt}
    (h : unreachableStmts ask scope stmts c = .ok out d) (hc : InFunction c) : InFunction d := by
  induction stmts generalizing c out with
  | nil =>
    cases h
    exact hc
  | cons stmt rest ih =>
    obtain ⟨s, c₁, after, hstmt, hafter, -⟩ := unreachableStmts_cons_eq_ok h
    exact ih hafter (ht.stmt hstmt hc)

theorem inFunction_checkStmts {stmts : List Surface.Stmt} {out : List Core.Stmt}
    (h : checkStmts ask scope stmts c = .ok out d) (hc : InFunction c) : InFunction d := by
  induction stmts generalizing c out with
  | nil =>
    cases h
    exact hc
  | cons stmt rest ih =>
    rcases checkStmts_cons_eq_ok h with
      ⟨-, warnings, c₁, hdead, rfl, -⟩ | ⟨-, s, c₁, after, hstmt, hafter, -⟩
    · exact (inFunction_unreachableStmts ht hdead (hc.region warnings)).reframe rfl rfl rfl
    · exact ih hafter (ht.stmt hstmt hc)

theorem inFunction_checkBlock {block : Surface.Block} {out : Core.Block × BlockFrame}
    (h : checkBlock ask block scope c = .ok out d) (hc : InFunction c) : InFunction d := by
  refine hc.advances (rests_checkBlock ht.steady h).advances ?_
  obtain ⟨stmts, c₁, hstmts, hsettle, -⟩ := checkBlock_eq_ok h
  refine tidy_settleMoves hsettle ?_
  rw [c₁.here_reframe rfl]
  exact Frame.tidy_closed (inFunction_checkStmts ht hstmts hc.openBlock).tidy

theorem inFunction_checkArm {block : Surface.Block} {dead : Bool} {out : Core.Block × BlockFrame}
    (h : checkArm ask block dead scope c = .ok out d) (hc : InFunction c) : InFunction d := by
  rcases checkArm_eq_ok h with ⟨-, hblock⟩ | ⟨-, warnings, c₁, hblock, rfl, -⟩
  · exact ht.block hblock hc
  · exact (ht.block hblock (hc.region warnings)).reframe rfl rfl rfl

theorem inFunction_checkBranches {b : Branching} {branches : List (Surface.Expr × Surface.Block)}
    {out : List (Core.Expr × Core.Block) × Branching}
    (h : checkBranches ask scope b branches c = .ok out d) (hc : InFunction c) : InFunction d := by
  induction branches generalizing b c out with
  | nil =>
    cases h
    exact hc
  | cons branch rest ih =>
    obtain ⟨test, block, outcome, checked, b', c₁, c₂, htest, harm, hrest, -⟩ :=
      checkBranches_cons_eq_ok h
    exact ih hrest (inFunction_checkArm ht harm (hc.moves (ht.steady.expr rfl htest)))

theorem inFunction_checkOtherwise {b : Branching} {otherwise : Option Surface.Block}
    {out : Option Core.Block × Branching}
    (h : checkOtherwise ask scope b otherwise c = .ok out d) (hc : InFunction c) : InFunction d := by
  cases otherwise with
  | none =>
    cases h
    exact hc
  | some body =>
    obtain ⟨block, outcome, harm, -⟩ := checkOtherwise_some_eq_ok h
    exact inFunction_checkArm ht harm hc

theorem inFunction_condStmt {branches : List (Surface.Expr × Surface.Block)}
    {otherwise : Option Surface.Block} {kind : Core.StmtKind}
    (h : condStmt ask branches otherwise scope c = .ok kind d) (hc : InFunction c) : InFunction d := by
  obtain ⟨checked, b, last, b', c₁, c₂, hbranches, hotherwise, -, rfl⟩ := condStmt_eq_ok h
  have hc₂ := inFunction_checkOtherwise ht hotherwise (inFunction_checkBranches ht hbranches hc)
  exact hc₂.reframe (Frame.stack_modifyTop b'.locals_leave) (Frame.modifyTop_locals _ _)
    (Frame.modifyTop_loops _ _)

theorem inFunction_scopeStmt {block : Surface.Block} {kind : Core.StmtKind}
    (h : scopeStmt ask block scope c = .ok kind d) (hc : InFunction c) : InFunction d := by
  obtain ⟨out, c₁, hblock, -, rfl⟩ := scopeStmt_eq_ok h
  exact (ht.block hblock hc).reframe (Frame.stack_modifyTop (by intro b; rfl))
    (Frame.modifyTop_locals _ _) (Frame.modifyTop_loops _ _)

/-! ## Loops -/

theorem inFunction_optionalStmt {stmt : Option Surface.Stmt} {out : Option Core.Stmt}
    (h : optionalStmt ask scope stmt c = .ok out d) (hc : InFunction c) : InFunction d := by
  cases stmt with
  | none =>
    cases h
    exact hc
  | some stmt =>
    obtain ⟨s, hstmt, -⟩ := optionalStmt_some_eq_ok h
    exact ht.stmt hstmt hc

theorem inFunction_loopCondition {condition : Option Surface.Expr}
    {out : Option Core.Expr × Option Bool}
    (h : loopCondition ask scope condition c = .ok out d) (hc : InFunction c) : InFunction d := by
  cases condition with
  | none =>
    cases h
    exact hc
  | some e =>
    obtain ⟨test, htest, -⟩ := loopCondition_some_eq_ok h
    exact hc.moves (ht.steady.expr rfl htest)

section

variable {form : LoopForm} (hc : InFunction c)
  (steps : LoopSteps ask ⟨c.loopCount + 1⟩ form scope (header c) d)

include hc steps

theorem inFunction_inside : InFunction (steps.entered.reframe (form.enter ⟨c.loopCount + 1⟩)) := by
  have hinit := advances_optionalStmt ht.steady steps.hinit
  refine (inFunction_optionalStmt ht steps.hinit hc.header).enter (fun loop hloop => ?_)
    hinit.loopCount form
  have hid : loop.id ∈ (header c).here.loops.map (·.id) := by
    rw [← Frame.loops_ids (hinit.here (.refl _)).loops]
    exact List.mem_map_of_mem hloop
  rw [hc.here_header] at hid
  obtain ⟨loop', hloop', hsame⟩ := List.mem_map.mp hid
  rw [← hsame]
  exact Nat.lt_succ_of_le (hc.numbered loop' hloop')

theorem inFunction_tested : InFunction steps.tested :=
  inFunction_loopCondition ht steps.hcondition (inFunction_inside ht hc steps)

theorem inFunction_behind : InFunction steps.behind :=
  inFunction_checkArm ht steps.hbody (inFunction_tested ht hc steps)

theorem inFunction_stepped : InFunction d :=
  inFunction_optionalStmt ht steps.hstep (inFunction_behind ht hc steps)

end

theorem inFunction_loopStmt {form : LoopForm} {kind : Core.StmtKind}
    (h : loopStmt ask form scope c = .ok kind d) (hc : InFunction c) : InFunction d := by
  refine hc.advances (advances_loopStmt ht.steady h) ?_
  obtain ⟨c₁, c₂, steps, hsettle, hd, -⟩ := loopStmt_eq_ok h
  have hc₂ : c₂.here.Tidy := by
    refine tidy_settleMoves hsettle ?_
    rw [c₁.here_reframe rfl]
    exact Frame.tidy_closed ((inFunction_stepped ht hc steps).tidy.congr rfl rfl)
  rw [hd]
  split
  · rw [c₂.here_reframe rfl]
    exact hc₂.congr (Frame.stack_modifyTop (by intro b; rfl)) (Frame.modifyTop_locals _ _)
  · exact hc₂

/-! ## Simple statements -/

theorem inFunction_declStmt {decl : Surface.VarDecl} {kind : Core.StmtKind}
    (h : declStmt ask decl scope c = .ok kind d) (hc : InFunction c) : InFunction d := by
  obtain ⟨steps, -⟩ := declStmt_eq_ok h
  have hannotated := hc.moves (ht.steady.evaluated steps.htype fun _ hP =>
    preserves_writtenType hP.answers _ _)
  have hvalued : InFunction steps.valued := by
    rcases steps.hvalue with ⟨-, -, hsame⟩ | ⟨e, v, -, -, hv⟩
    · rw [hsame]
      exact hannotated
    · exact hannotated.moves (ht.steady.expr rfl hv)
  have hcompleted := hvalued.moves (ht.steady.evaluated steps.hcomplete fun _ hP =>
    preserves_complete hP.answers _ _)
  have htaken : InFunction steps.taken := by
    rcases steps.htaken with ⟨-, -, hsame⟩ | ⟨v, -, hv⟩
    · rw [hsame]
      exact hcompleted
    · exact hcompleted.moves (ht.steady.evaluated hv fun _ hP => hP.consume _)
  exact inFunction_declareLocal steps.hdeclare htaken

theorem inFunction_assignStmt {target value : Surface.Expr} {op : Option Surface.ArithmeticOp}
    {kind : Core.StmtKind} (h : assignStmt ask target op value scope c = .ok kind d)
    (hc : InFunction c) : InFunction d := by
  refine hc.advances (advances_assignStmt ht.steady h) ?_
  obtain ⟨steps, -⟩ := assignStmt_eq_ok h
  have hplaced := hc.moves (ht.steady.expr rfl steps.hplace)
  have hvalue : steps.placed.Steps Frame.Moves steps.valued := by
    rcases steps.hsource with ⟨-, hv⟩ | ⟨o, right, -, hv, -⟩
    · exact ht.steady.expr rfl hv
    · exact ht.steady.expr rfl hv
  have hconsumed : steps.valued.Steps Frame.Moves steps.taken :=
    ht.steady.evaluated steps.htaken fun _ hP => hP.consume _
  have htaken := (hplaced.moves hvalue).moves hconsumed
  rcases takeOwnership_eq_ok steps.hstored with ⟨-, -, hsame⟩ | ⟨hunique, id, hslot, -, hd⟩
  · rw [hsame]
    exact htaken.tidy
  · rw [hd, htaken.here_reframe]
    refine Frame.tidy_own htaken.tidy ?_
    have hmoves := (hvalue.here (.refl _)).trans (hconsumed.here (.refl _))
    rw [hmoves.localAt id, ← ht.denoted steps.hplace hslot]
    exact hunique

theorem inFunction_exprStmt {e : Surface.Expr} {kind : Core.StmtKind}
    (h : exprStmt ask e scope c = .ok kind d) (hc : InFunction c) : InFunction d := by
  obtain ⟨value, hvalue, -⟩ := exprStmt_eq_ok h
  exact hc.moves (ht.steady.evaluated hvalue fun _ hP => preserves_rawValue hP _ _ _)

theorem inFunction_returnedValue {value : Option Surface.Expr} {returns : Ty} {span : Span}
    {out : Option Core.Expr} (h : returnedValue ask value returns span scope c = .ok out d)
    (hc : InFunction c) : InFunction d := by
  rcases returnedValue_eq_ok h with ⟨-, -, -, rfl⟩ | ⟨e, v, -, hv, -⟩ | ⟨e, v, c₁, -, hv, htaken, -⟩
  · exact hc
  · exact hc.moves (ht.steady.evaluated hv fun _ hP => preserves_rawValue hP _ _ _)
  · exact (hc.moves (ht.steady.expr rfl hv)).moves
      (ht.steady.evaluated htaken fun _ hP => hP.consume _)

theorem inFunction_returnStmt {value : Option Surface.Expr} {span : Span} {kind : Core.StmtKind}
    (h : returnStmt ask value span scope c = .ok kind d) (hc : InFunction c) : InFunction d := by
  obtain ⟨out, c₁, hout, -, rfl⟩ := returnStmt_eq_ok h
  exact (inFunction_returnedValue ht hout hc).reframe (Frame.stack_modifyTop (by intro b; rfl))
    (Frame.modifyTop_locals _ _) (Frame.modifyTop_loops _ _)

theorem inFunction_checkStmt {s : Surface.Stmt} {out : Core.Stmt}
    (h : checkStmt ask s scope c = .ok out d) (hc : InFunction c) : InFunction d := by
  obtain ⟨kind, hkind, -⟩ := checkStmt_eq_ok h
  refine stmtKind_elim hkind ?_ ?_ ?_ ?_ ?_ ?_ ?_ ?_
  · exact fun _ _ h => inFunction_declStmt ht h hc
  · exact fun _ _ _ _ h => inFunction_assignStmt ht h hc
  · exact fun _ _ h => inFunction_exprStmt ht h hc
  · exact fun _ _ h => inFunction_returnStmt ht h hc
  · exact fun _ _ _ h => inFunction_jumpStmt h hc
  · exact fun _ _ _ h => inFunction_condStmt ht h hc
  · exact fun _ _ h => inFunction_loopStmt ht h hc
  · exact fun _ _ h => inFunction_scopeStmt ht h hc

theorem Tidying.step : Tidying (step ask) where
  steady := ht.steady.step
  denoted := slot_type
  stmt h hc := inFunction_checkStmt ht h hc
  block h hc := inFunction_checkBlock ht h hc

end

theorem tidying_answerTo (n : Nat) : Tidying (answerTo n) := by
  induction n with
  | zero =>
    refine ⟨steady_answerTo 0, fun h => ?_, fun h => ?_, fun h => ?_⟩ <;> cases h
  | succ n ih => exact ih.step

/-! ## Bodies -/

theorem inFunction_opened (c : Context) (id : GlobalId) (returns : Ty) :
    InFunction (opened c id returns) := by
  have hstack : (opened c id returns).here.stack = [[]] := rfl
  refine ⟨rfl, ⟨?_, ?_, ?_, ?_⟩, nofun, List.nodup_nil, nofun⟩
  · rw [hstack]
    exact nofun
  · rw [hstack]
    exact .nil
  · rw [hstack]
    intro ids rest hsuffix local_ hlocal
    rcases List.suffix_cons_iff.mp hsuffix with hall | hsuffix
    · cases hall
      cases hlocal
    · exact absurd (List.suffix_nil.mp hsuffix) (List.cons_ne_nil _ _)
  · intro local_ howns
    cases howns

theorem inFunction_declareParams {params : List (Surface.Param × Ty)} {ids : List LocalId}
    (h : declareParams params c = .ok ids d) (hc : InFunction c) : InFunction d := by
  induction params generalizing c ids with
  | nil =>
    cases h
    exact hc
  | cons param rest ih =>
    obtain ⟨id, c₁, hid, hrest⟩ := Run.bind_eq_ok.mp h
    obtain ⟨ids', c₂, hids, hreturn⟩ := Run.bind_eq_ok.mp hrest
    cases hreturn
    exact ih hids (inFunction_declareLocal hid hc)

theorem inFunction_declareReceiver {decl : Surface.FnDecl} {owner : Option StructId}
    {params : List Ty} {out : List LocalId × List Ty}
    (h : declareReceiver decl owner params c = .ok out d) (hc : InFunction c) : InFunction d := by
  unfold declareReceiver at h
  cases owner with
  | none =>
    cases h
    exact hc
  | some owner =>
    cases params with
    | nil =>
      cases h
      exact hc
    | cons this rest =>
      dsimp only at h
      split at h
      · obtain ⟨id, c₁, hid, hrest⟩ := Run.bind_eq_ok.mp h
        obtain ⟨u, c₂, hreceiver, hreturn⟩ := Run.bind_eq_ok.mp hrest
        cases hreceiver
        cases hreturn
        exact (inFunction_declareLocal hid hc).reframe rfl rfl rfl
      · cases h
        exact hc

/-- The statements of a body are checked in its function. -/
theorem BodySteps.inFunction {id : GlobalId} {decl : Surface.FnDecl} {owner : Option StructId}
    {display : String} {params : List Ty} {returns : Ty}
    (steps : BodySteps ask id decl owner display scope params returns c d) :
    InFunction steps.entered :=
  inFunction_declareParams steps.hparams
    (inFunction_declareReceiver steps.hreceiver (inFunction_opened _ _ _))

end Check

end OwnLang
