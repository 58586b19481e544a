import Mathlib
import OwnLang.Proofs.Check.Fewer
import OwnLang.Proofs.Check.Tidy

/-!
# Scopes

While the body of a function is checked, its locals are numbered along the open blocks, and every open
loop has its body in a block further in than its header and than the loops around it
(`Frame.WellScoped`). So a name stands for the local that was declared last of those that are visible
and bear it.

What is open beyond a frame lies inside it (`Frame.Inside`). Every step that changes what is open or
declared keeps a frame inside the frame that it started from, and what is opened is closed again
wherever the work in between ends. So in the course `Course.scoping` a refusal of all questions that
are put outside tells two runs apart nowhere (`scoping_answerCut`).
-/

namespace OwnLang

open Surface (Ident)

namespace Frame

/-- The locals of the open blocks, the outermost block in front, and in each the first declared. -/
def scopes (f : Frame) : List (List LocalId) := (f.stack.map List.reverse).reverse

/-- What a local is looked up by. -/
def nameOf (f : Frame) (id : LocalId) : String := (f.localAt id).name.name

/-- How many blocks are open, and how deep the bodies of the open loops are. -/
def depths (f : Frame) : Nat × List Nat := (f.height, f.loopDepths)

/-- The locals and the loops of a function are where their depths say. -/
structure WellScoped (f : Frame) : Prop where
  started : f.blocks ≠ []
  rising : f.scopes.flatten.Pairwise fun a b => a.index < b.index
  declared : ∀ id ∈ f.scopes.flatten, id.index < f.locals.size
  placed : ∀ depth ids, f.scopes[depth]? = some ids → ∀ id ∈ ids, (f.localAt id).depth = depth
  once : ∀ id ∈ f.scopes.flatten, ∃! depth : Nat, ∃ ids : List LocalId,
    f.scopes[depth]? = some ids ∧ id ∈ ids
  apart : ∀ ids ∈ f.scopes, (ids.map f.nameOf).Nodup
  /-- A name stands for the last declared of the visible locals that bear it. -/
  lookup : ∀ name id, f.lookup name = some id ↔
    id ∈ f.scopes.flatten ∧ f.nameOf id = name ∧
      ∀ other ∈ f.scopes.flatten, f.nameOf other = name → other.index ≤ id.index
  /-- The header of a loop is the block around its body, and it is open. -/
  headed : ∀ loop ∈ f.loops, 0 < loop.bodyDepth ∧ loop.bodyDepth ≤ f.height
  nested : (f.loops.map (·.bodyDepth)).Pairwise (· > ·)

/-- A frame with further blocks open: those of the outer frame are unchanged, and the loops that
were opened since have their bodies above the first block that is further in. -/
structure Encloses (outer f : Frame) : Prop where
  around : outer.stack <:+ f.stack
  above : outer.height < f.height
  loops : ∃ inner, f.loopDepths = inner ++ outer.loopDepths ∧ ∀ depth ∈ inner, outer.height < depth

/-- A frame with further blocks open, in which locals and loops are where their depths say. -/
structure Inside (outer f : Frame) : Prop extends f.Layered, outer.Encloses f where
  apart : ∀ ids ∈ f.stack, (ids.map f.nameOf).Nodup
  headed : ∀ depth ∈ f.loopDepths, depth ≤ f.height
  nested : f.loopDepths.Pairwise (· > ·)

variable {outer f g k : Frame}

/-! ## Scopes from the outside -/

theorem flatten_scopes (f : Frame) : f.scopes.flatten = f.stack.flatten.reverse :=
  (List.reverse_flatten ..).symm

theorem mem_scopes {ids : List LocalId} : ids ∈ f.scopes ↔ ids.reverse ∈ f.stack := by
  rw [scopes, List.mem_reverse, List.mem_map]
  constructor
  · rintro ⟨ids, hids, rfl⟩
    rwa [List.reverse_reverse]
  · exact fun hids => ⟨_, hids, ids.reverse_reverse⟩

/-- The scope of a depth is the block with as many blocks around it. -/
theorem scopes_eq_some {depth : Nat} {ids : List LocalId} :
    f.scopes[depth]? = some ids ↔ ∃ rest, ids.reverse :: rest <:+ f.stack ∧ rest.length = depth := by
  rw [scopes, ← List.map_reverse, List.getElem?_map, Option.map_eq_some_iff]
  constructor
  · rintro ⟨block, hblock, rfl⟩
    obtain ⟨hdepth, rfl⟩ := List.getElem?_eq_some_iff.mp hblock
    rw [List.length_reverse] at hdepth
    rw [List.getElem_reverse, List.reverse_reverse]
    refine ⟨f.stack.drop (f.stack.length - depth), ?_, by rw [List.length_drop]; omega⟩
    have hdrop := List.drop_eq_getElem_cons (l := f.stack) (i := f.stack.length - 1 - depth) (by omega)
    rw [show f.stack.length - 1 - depth + 1 = f.stack.length - depth by omega] at hdrop
    rw [← hdrop]
    exact List.drop_suffix _ _
  · rintro ⟨rest, ⟨before, hstack⟩, rfl⟩
    refine ⟨ids.reverse, ?_, ids.reverse_reverse⟩
    rw [← hstack, List.reverse_append, List.reverse_cons, List.append_assoc,
      List.getElem?_append_right (by rw [List.length_reverse]), List.length_reverse, Nat.sub_self]
    rfl

/-- Of numbers that decrease, the first one that fits is the largest. -/
theorem find?_eq_some_of_descending {l : List LocalId} (h : l.Pairwise fun a b => b.index < a.index)
    (p : LocalId → Bool) (id : LocalId) :
    l.find? p = some id ↔ id ∈ l ∧ p id ∧ ∀ other ∈ l, p other → other.index ≤ id.index := by
  induction l with
  | nil => simp
  | cons a l ih =>
    obtain ⟨hbelow, hrest⟩ := List.pairwise_cons.mp h
    rw [List.find?_cons]
    cases ha : p a with
    | true =>
      constructor
      · rintro ⟨⟩
        refine ⟨List.mem_cons_self, ha, fun other hother _ => ?_⟩
        rcases List.mem_cons.mp hother with rfl | hother
        · exact le_rfl
        · exact (hbelow other hother).le
      · rintro ⟨hid, -, hlast⟩
        rcases List.mem_cons.mp hid with rfl | hid
        · rfl
        · exact absurd (hbelow id hid) (Nat.not_lt.mpr (hlast a List.mem_cons_self ha))
    | false =>
      have hne {other : LocalId} (hother : p other = true) : other ≠ a := by
        rintro rfl
        cases ha.symm.trans hother
      rw [ih hrest]
      constructor
      · rintro ⟨hid, hp, hlast⟩
        refine ⟨List.mem_cons_of_mem _ hid, hp, fun other hother hpo => ?_⟩
        exact hlast other (List.mem_of_ne_of_mem (hne hpo) hother) hpo
      · rintro ⟨hid, hp, hlast⟩
        exact ⟨List.mem_of_ne_of_mem (hne hp) hid, hp,
          fun other hother => hlast other (List.mem_cons_of_mem _ hother)⟩

theorem WellScoped.inside (h : f.WellScoped) : (default : Frame).Inside f where
  declared id hid := h.declared id (by rwa [flatten_scopes, List.mem_reverse])
  ordered := by
    have hrising := h.rising
    rwa [flatten_scopes, List.pairwise_reverse] at hrising
  placed ids rest hsuffix id hid := by
    refine h.placed rest.length ids.reverse (scopes_eq_some.mpr ⟨rest, ?_, rfl⟩) id ?_
    · rwa [List.reverse_reverse]
    · rwa [List.mem_reverse]
  around := List.nil_suffix
  above := List.length_pos_iff.mpr h.started
  loops := by
    refine ⟨f.loopDepths, (List.append_nil _).symm, fun depth hdepth => ?_⟩
    obtain ⟨loop, hloop, rfl⟩ := List.mem_map.mp hdepth
    exact (h.headed loop hloop).1
  apart ids hids := by
    have hapart := h.apart ids.reverse (mem_scopes.mpr (by rwa [List.reverse_reverse]))
    rwa [List.map_reverse, List.nodup_reverse] at hapart
  headed depth hdepth := by
    obtain ⟨loop, hloop, rfl⟩ := List.mem_map.mp hdepth
    exact (h.headed loop hloop).2
  nested := h.nested

theorem Inside.wellScoped (h : (default : Frame).Inside f) : f.WellScoped where
  started hnone := by
    have habove : 0 < f.blocks.length := h.above
    rw [hnone] at habove
    cases habove
  rising := by
    rw [flatten_scopes, List.pairwise_reverse]
    exact h.ordered
  declared id hid := h.declared id (by rwa [flatten_scopes, List.mem_reverse] at hid)
  placed depth ids hids id hid := by
    obtain ⟨rest, hsuffix, rfl⟩ := scopes_eq_some.mp hids
    exact h.placed _ rest hsuffix id (List.mem_reverse.mpr hid)
  once id hid := by
    obtain ⟨ids, hids, hmem⟩ := List.mem_flatten.mp hid
    obtain ⟨depth, hdepth⟩ := List.mem_iff_getElem?.mp hids
    have hplaced {depth : Nat} {ids : List LocalId} (hids : f.scopes[depth]? = some ids)
        (hmem : id ∈ ids) : (f.localAt id).depth = depth := by
      obtain ⟨rest, hsuffix, rfl⟩ := scopes_eq_some.mp hids
      exact h.placed _ rest hsuffix id (List.mem_reverse.mpr hmem)
    refine ⟨depth, ⟨ids, hdepth, hmem⟩, fun other hother => ?_⟩
    obtain ⟨ids', hids', hmem'⟩ := hother
    exact (hplaced hids' hmem').symm.trans (hplaced hdepth hmem)
  apart ids hids := by
    have hapart := h.apart _ (mem_scopes.mp hids)
    rwa [List.map_reverse, List.nodup_reverse] at hapart
  lookup name id := by
    have hlookup : f.lookup name = f.stack.flatten.find? fun id => f.nameOf id == name := by
      rw [lookup, List.flatMap_def]
      rfl
    rw [hlookup, find?_eq_some_of_descending h.ordered]
    simp only [flatten_scopes, List.mem_reverse, beq_iff_eq]
  headed loop hloop := by
    have hmem : loop.bodyDepth ∈ f.loopDepths := List.mem_map_of_mem hloop
    obtain ⟨inner, hinner, hpositive⟩ := h.loops
    rw [show (default : Frame).loopDepths = [] from rfl, List.append_nil] at hinner
    exact ⟨hpositive _ (hinner ▸ hmem), h.headed _ hmem⟩
  nested := h.nested

/-! ## Frames inside others -/

theorem nameOf_congr (hentries : g.locals.map Local.entry = f.locals.map Local.entry) :
    g.nameOf = f.nameOf := by
  funext id
  have hentry : (g.localAt id).entry = (f.localAt id).entry := by
    rw [entry_localAt, entry_localAt, hentries]
  exact congrArg (·.1.name) hentry

theorem depths_of_outline (h : g.outline = f.outline) : g.depths = f.depths := by
  have hstack : g.stack = f.stack := congrArg (·.1) h
  have hloops : g.loopDepths = f.loopDepths := congrArg (·.2.1) h
  rw [depths, ← length_stack, hstack, hloops, length_stack, depths]

/-- What was opened is closed again. -/
theorem Inside.back (hf : outer.Inside f) (hg : outer.Inside g) (hstack : k.stack <:+ g.stack)
    (hentries : k.locals.map Local.entry = g.locals.map Local.entry) (hdepths : k.depths = f.depths) :
    outer.Inside k := by
  obtain ⟨hheight, hloops⟩ := Prod.mk.inj hdepths
  have habove : outer.height < k.height := hheight ▸ hf.above
  refine ⟨hg.toLayered.of_suffix hstack hentries, ⟨?_, habove, ?_⟩, fun ids hids => ?_, ?_, ?_⟩
  · refine List.suffix_of_suffix_length_le hg.around hstack ?_
    rw [length_stack, length_stack]
    exact habove.le
  · rw [hloops]
    exact hf.loops
  · rw [nameOf_congr hentries]
    exact hg.apart ids (hstack.subset hids)
  · rw [hloops, hheight]
    exact hf.headed
  · rw [hloops]
    exact hf.nested

theorem Inside.of_outline (h : outer.Inside f) (houtline : g.outline = f.outline) :
    outer.Inside g := by
  have hstack : g.stack = f.stack := congrArg (·.1) houtline
  exact h.back h (hstack ▸ List.suffix_rfl) (congrArg (·.2.2) houtline) (depths_of_outline houtline)

theorem Inside.openBlock (h : outer.Inside f) : outer.Inside f.openBlock where
  toLayered := h.toLayered.openBlock
  around := h.around.trans (List.suffix_cons _ _)
  above := Nat.lt_succ_of_lt h.above
  loops := h.loops
  apart ids hids := by
    rcases List.mem_cons.mp hids with rfl | hids
    · exact List.nodup_nil
    · exact h.apart ids hids
  headed depth hdepth := Nat.le_succ_of_le (h.headed depth hdepth)
  nested := h.nested

/-- A block that is opened lies inside. -/
theorem Inside.opened (h : outer.Inside f) : f.Inside f.openBlock :=
  { h.openBlock with
    around := List.suffix_cons _ _
    above := Nat.lt_succ_self _
    loops := ⟨[], rfl, nofun⟩ }

theorem Inside.below_openBlock (h : outer.Inside f) :
    ∀ depth ∈ f.openBlock.loopDepths, depth < f.openBlock.height :=
  fun depth hdepth => Nat.lt_succ_of_le (h.headed depth hdepth)

theorem depths_declare (f : Frame) (l : Local) : (Check.declare l f).depths = f.depths := by
  unfold depths Check.declare
  rw [modifyTop_height]
  unfold loopDepths
  rw [modifyTop_loops]
  rfl

theorem locals_top {block : List LocalId} {rest : List (List LocalId)} (h : f.stack = block :: rest) :
    f.top.locals = block := by
  obtain ⟨b, blocks, hblocks, rfl, -⟩ := List.map_eq_cons_iff.mp h
  rw [top, hblocks]
  rfl

/-- A new local stands behind all others, and its name apart from those of its block. -/
theorem Inside.declare (h : outer.Inside f) {l : Local} (hdepth : l.depth = f.height - 1)
    (hname : ∀ id ∈ f.top.locals, f.nameOf id ≠ l.name.name) : outer.Inside (Check.declare l f) := by
  obtain ⟨hheight, hloops⟩ := Prod.mk.inj (f.depths_declare l)
  have hlen : outer.stack.length < f.stack.length := by
    rw [length_stack, length_stack]
    exact h.above
  obtain ⟨block, rest, hblocks⟩ := List.exists_cons_of_length_pos (Nat.zero_lt_of_lt hlen)
  have hstack : (Check.declare l f).stack = (⟨f.locals.size⟩ :: block) :: rest := by
    rw [stack_declare, hblocks, List.modifyHead_cons]
  have hold {ids : List LocalId} (hids : ids ∈ f.stack) :
      ids.map (Check.declare l f).nameOf = ids.map f.nameOf :=
    List.map_congr_left fun id hid => by
      have hlocal := localAt_declare_of_lt (l := l) (h.declared id (List.mem_flatten_of_mem hids hid))
      exact congrArg (·.name.name) hlocal
  refine ⟨h.toLayered.declare hdepth, ⟨?_, hheight ▸ h.above, hloops ▸ h.loops⟩, fun ids hids => ?_, ?_,
    hloops ▸ h.nested⟩
  · rw [hstack]
    have haround := h.around
    rw [hblocks] at haround hlen
    rcases List.suffix_cons_iff.mp haround with hall | haround
    · rw [hall] at hlen
      exact absurd hlen (Nat.lt_irrefl _)
    · exact haround.trans (List.suffix_cons _ _)
  · rw [hstack] at hids
    rcases List.mem_cons.mp hids with rfl | hids
    · have hblock : block ∈ f.stack := hblocks ▸ List.mem_cons_self
      have hnew : (Check.declare l f).nameOf ⟨f.locals.size⟩ = l.name.name :=
        congrArg (·.name.name) (f.localAt_declare_size l)
      rw [List.map_cons, hold hblock, hnew]
      refine List.nodup_cons.mpr ⟨fun hmem => ?_, h.apart block hblock⟩
      obtain ⟨id, hid, hsame⟩ := List.mem_map.mp hmem
      rw [locals_top hblocks] at hname
      exact hname id hid hsame
    · have hids : ids ∈ f.stack := hblocks ▸ List.mem_cons_of_mem _ hids
      rw [hold hids]
      exact h.apart ids hids
  · rw [hloops, hheight]
    exact h.headed

/-- The body of a loop lies further in than those of the loops around it, since the header's block is
open by then. -/
theorem Inside.enter (h : outer.Inside f) (hheader : ∀ depth ∈ f.loopDepths, depth < f.height)
    (form : Check.LoopForm) (id : LoopId) : outer.Inside (form.enter id f) where
  toLayered := h.toLayered.of_suffix List.suffix_rfl rfl
  around := h.around
  above := h.above
  loops := by
    obtain ⟨inner, hinner, habove⟩ := h.loops
    refine ⟨f.height :: inner, congrArg (f.height :: ·) hinner, fun depth hdepth => ?_⟩
    rcases List.mem_cons.mp hdepth with rfl | hdepth
    · exact h.above
    · exact habove depth hdepth
  apart := h.apart
  headed depth hdepth := by
    rcases List.mem_cons.mp hdepth with rfl | hdepth
    · exact le_rfl
    · exact h.headed depth hdepth
  nested := List.pairwise_cons.mpr ⟨hheader, h.nested⟩

end Frame

/-! ## The course of a frame -/

/-- The frame that is open, if there is one, lies inside another one. -/
def Context.Inside (outer : Frame) (c : Context) : Prop := ∀ f, c.frame = some f → outer.Inside f

/-- Frames stay inside another one, and what is opened is closed. -/
def Course.scoping (outer : Frame) : Course Context where
  ready c := c.Inside outer
  moves c d := c.Inside outer → d.Inside outer ∧ d.frame.map Frame.depths = c.frame.map Frame.depths
  done _ _ := True
  after _ _ := True
  whole := True
  moves_refl _ hc := ⟨hc, rfl⟩
  moves_trans h h' hc := ⟨(h' (h hc).1).1, (h' (h hc).1).2.trans (h hc).2⟩
  done_refl _ := trivial
  done_trans _ _ _ _ := trivial
  ready_done hc h _ := (h hc).1
  after_of_moves _ := trivial
  after_trans _ _ := trivial

namespace Check

variable {ask ask' : Asker} {outer : Frame} {c d : Context}

theorem inside_of_none (h : c.frame = none) : c.Inside outer := fun f hf => by cases h.symm.trans hf

theorem inside_reframe {change : Frame → Frame}
    (h : ∀ f, c.frame = some f → outer.Inside (change f)) : (c.reframe change).Inside outer := by
  intro g hg
  obtain ⟨f, hf, rfl⟩ := Option.map_eq_some_iff.mp hg
  exact h f hf

theorem scoping_of_some (hnone : c.frame = none → d.frame = none)
    (hsome : ∀ f, c.frame = some f → outer.Inside f →
      ∃ g, d.frame = some g ∧ outer.Inside g ∧ g.depths = f.depths) :
    (Course.scoping outer).moves c d := by
  intro hc
  cases hframe : c.frame with
  | none => exact ⟨inside_of_none (hnone hframe), by rw [hnone hframe]⟩
  | some f =>
    obtain ⟨g, hg, hinside, hdepths⟩ := hsome f hframe (hc f hframe)
    refine ⟨fun k hk => ?_, by rw [hg, Option.map_some, Option.map_some, hdepths]⟩
    obtain rfl := Option.some.inj (hg.symm.trans hk)
    exact hinside

theorem none_of_scoping (h : (Course.scoping outer).moves c d) (hc : c.frame = none) :
    d.frame = none := by
  have hdepths := (h (inside_of_none hc)).2
  rwa [hc, Option.map_none, Option.map_eq_none_iff] at hdepths

theorem some_of_scoping (h : (Course.scoping outer).moves c d) (hc : c.Inside outer) {f : Frame}
    (hf : c.frame = some f) : ∃ g, d.frame = some g ∧ outer.Inside g ∧ g.depths = f.depths := by
  obtain ⟨hd, hdepths⟩ := h hc
  rw [hf] at hdepths
  obtain ⟨g, hg, hgf⟩ := Option.map_eq_some_iff.mp hdepths
  exact ⟨g, hg, hd g hg, hgf⟩

theorem scoping_outline (h : d.frame.map Frame.outline = c.frame.map Frame.outline) :
    (Course.scoping outer).moves c d := by
  refine scoping_of_some (fun hc => ?_) fun f hf hinside => ?_
  · rwa [hc, Option.map_none, Option.map_eq_none_iff] at h
  · rw [hf] at h
    obtain ⟨g, hg, houtline⟩ := Option.map_eq_some_iff.mp h
    exact ⟨g, hg, hinside.of_outline houtline, Frame.depths_of_outline houtline⟩

/-- What is opened, gone through and closed again. -/
theorem scoping_around {enter leave : Frame → Frame} {t : Context}
    (henter : ∀ f, c.frame = some f → outer.Inside f → outer.Inside (enter f))
    (hleave : ∀ f g, g.depths = (enter f).depths →
      (leave g).stack <:+ g.stack ∧ (leave g).locals = g.locals ∧ (leave g).depths = f.depths)
    (h : (Course.scoping outer).moves (c.reframe enter) t) :
    (Course.scoping outer).moves c (t.reframe leave) := by
  refine scoping_of_some (fun hc => ?_) fun f hf hinside => ?_
  · have ht := none_of_scoping h (by rw [Context.reframe, hc]; rfl)
    rw [Context.reframe, ht]
    rfl
  · have hentered : (c.reframe enter).frame = some (enter f) := congrArg (Option.map enter) hf
    have hstart : (c.reframe enter).Inside outer := inside_reframe fun f' hf' => by
      obtain rfl := Option.some.inj (hf.symm.trans hf')
      exact henter f hf hinside
    obtain ⟨g, hg, hinner, hdepths⟩ := some_of_scoping h hstart hentered
    obtain ⟨hstack, hlocals, hback⟩ := hleave f g hdepths
    exact ⟨leave g, congrArg (Option.map leave) hg,
      hinside.back hinner hstack (by rw [hlocals]) hback, hback⟩

theorem scoping_opened {t : Context}
    (h : (Course.scoping outer).moves (c.reframe Frame.openBlock) t) :
    (Course.scoping outer).moves c (t.reframe closed) := by
  refine scoping_around (fun f _ hinside => hinside.openBlock) (fun f g hdepths => ?_) h
  obtain ⟨hheight, hloops⟩ := Prod.mk.inj hdepths
  refine ⟨g.closed_suffix, rfl, ?_⟩
  have hclosed : (closed g).height = f.height := by
    rw [← Frame.length_stack, Frame.stack_closed, List.length_tail, Frame.length_stack, hheight]
    rfl
  exact Prod.ext hclosed hloops

theorem scoping_entered {t : Context} {form : LoopForm} {id : LoopId}
    (hheader : ∀ f, c.frame = some f → ∀ depth ∈ f.loopDepths, depth < f.height)
    (h : (Course.scoping outer).moves (c.reframe (form.enter id)) t) :
    (Course.scoping outer).moves c (t.reframe leaveLoop) := by
  refine scoping_around (fun f hf hinside => hinside.enter (hheader f hf) form id)
    (fun f g hdepths => ⟨List.suffix_rfl, rfl, ?_⟩) h
  obtain ⟨hheight, hloops⟩ := Prod.mk.inj hdepths
  have hleft : (leaveLoop g).loopDepths = g.loopDepths.tail := List.map_tail
  rw [hloops] at hleft
  exact Prod.ext hheight hleft

theorem framed_scoping : (Course.scoping outer).Framed where
  kept c d h := ⟨scoping_outline (by rw [h]), trivial⟩
  detached {α x y} h := by
    intro c hc
    let start : Context := { c with frame := none }
    have hstart : start.Inside outer := nofun
    have hback (d : Context) (_ : (Course.scoping outer).moves start d) :
        (Course.scoping outer).moves c { d with frame := c.frame } := scoping_outline rfl
    exact ((h start hstart).around hback (fun _ _ _ => trivial) fun _ _ _ => trivial).of_eq rfl rfl

/-- A local is declared in the innermost block, unless the block has one of the name. -/
theorem declareLocal_ends {name : Ident} {t : Ty} {constant : Bool} {value : Option Const}
    (h : (declareLocal name t constant value).Ends c d) :
    d = c ∨ ∃ l : Local, l.depth = c.here.height - 1 ∧
      (∀ id ∈ c.here.top.locals, c.here.nameOf id ≠ l.name.name) ∧ d = c.reframe (declare l) := by
  rw [Run.Ends, declareLocal, frame_bind_apply] at h
  cases hclash : c.here.top.locals.reverse.find? fun id =>
      (c.here.localAt id).name.name == name.name with
  | some previous =>
    rw [hclash] at h
    rcases h with ⟨id, h⟩ | ⟨e, h⟩ <;> cases h
    exact .inl rfl
  | none =>
    rw [hclash] at h
    have hnew := List.find?_eq_none.mp hclash
    rcases h with ⟨id, h⟩ | ⟨e, h⟩ <;> cases h
    refine .inr ⟨_, rfl, fun id hid => ?_, c.reframe_congr rfl⟩
    simpa [Frame.nameOf] using hnew id (List.mem_reverse.mpr hid)

theorem scoping_declareLocal (name : Ident) (t : Ty) (constant : Bool) (value : Option Const) :
    (declareLocal name t constant value).Follows (.scoping outer)
      (declareLocal name t constant value) := by
  intro c _
  refine Run.followsFrom_of_same (fun d hd => ?_) fun _ _ _ => trivial
  rcases declareLocal_ends hd with rfl | ⟨l, hdepth, hname, rfl⟩
  · exact (Course.scoping outer).moves_refl _
  · refine scoping_of_some (fun hc => congrArg (Option.map (declare l)) hc) fun f hf hinside => ?_
    have hhere : c.here = f := by
      rw [Context.here, hf]
      rfl
    rw [hhere] at hdepth hname
    exact ⟨_, congrArg (Option.map (declare l)) hf, hinside.declare hdepth hname, f.depths_declare l⟩

section

variable (ha : ∀ q : Query, (ask q).Follows (.scoping outer) (ask' q))

include ha

theorem followingFlat_scoping : FollowingFlat (.scoping outer) ask ask' := by
  have hconsume (value : Core.Expr) :
      (consume value).Follows (.scoping outer) (consume value) := by
    intro c _
    refine Run.followsFrom_of_same (fun d hd => scoping_outline ?_) fun _ _ _ => trivial
    have hmoved := frameMoved_consume value hd (.refl c)
    unfold FrameMoved at hmoved
    generalize c.frame = o at hmoved ⊢
    generalize d.frame = o' at hmoved ⊢
    cases hmoved with
    | none => rfl
    | some hfg => exact congrArg some hfg.outline
  have hfollowing : Following (.scoping outer) ask ask' :=
    ⟨fun q _ => ha q, hconsume, framed_resolveMacro framed_scoping ha,
      framed_instantiate framed_scoping ha⟩
  exact { hfollowing with
    everyAnswer := ha
    resembles c d h := ⟨scoping_outline h.outline, trivial⟩
    declared := follows_declStmt hfollowing scoping_declareLocal }

/-! ## Blocks and loops -/

theorem scoping_checkBlock (block : Surface.Block) (scope : Scope) :
    (checkBlock ask block scope).Follows (.scoping outer) (checkBlock ask' block scope) := by
  intro c hc
  have h := followingFlat_scoping ha
  have hopened : (c.reframe Frame.openBlock).Inside outer :=
    inside_reframe fun f hf => (hc f hf).openBlock
  refine ((follows_checkStmts h scope block.stmts _ hopened).enclosed closeBlock_apply
    (fun t ht => scoping_opened ht) (fun _ _ _ => trivial) (fun _ _ _ => trivial)
    fun stmts out t hmoves _ => ?_).of_eq rfl rfl
  exact (follows_light h.resembles fun hP => preserves_settleMoves hP _).bind
    (fun _ => Run.follows_pure _) t (hmoves hc).1

/-- A loop is checked where the block of its header is further in than all loops. -/
theorem scoping_checkLoopParts (id : LoopId) (form : LoopForm) (scope : Scope) (hc : c.Inside outer)
    (hheader : ∀ f, c.frame = some f → ∀ depth ∈ f.loopDepths, depth < f.height) :
    Run.FollowsFrom (.scoping outer) c (checkLoopParts ask id form scope)
      (checkLoopParts ask' id form scope) := by
  have h := followingFlat_scoping ha
  refine (follows_optionalStmt h scope form.init c hc).bind_ok fun init c₁ _ hmoves _ => ?_
  have hc₁ := (hmoves hc).1
  have hheader₁ (g : Frame) (hg : c₁.frame = some g) (depth : Nat) (hdepth : depth ∈ g.loopDepths) :
      depth < g.height := by
    cases hframe : c.frame with
    | none => cases (none_of_scoping hmoves hframe).symm.trans hg
    | some f =>
      obtain ⟨k, hk, -, hdepths⟩ := some_of_scoping hmoves hc hframe
      obtain rfl := Option.some.inj (hk.symm.trans hg)
      obtain ⟨hheight, hloops⟩ := Prod.mk.inj hdepths
      rw [hheight]
      exact hheader f hframe depth (hloops ▸ hdepth)
  have hentered : (c₁.reframe (form.enter id)).Inside outer :=
    inside_reframe fun g hg => (hc₁ g hg).enter (hheader₁ g hg) form id
  have hclose (t : Context) : closeLoop t = .ok (isLeft t.here) (t.reframe leaveLoop) := rfl
  exact ((follows_checkIteration h form scope _ hentered).enclosed hclose
    (fun t ht => scoping_entered hheader₁ ht) (fun _ _ _ => trivial) (fun _ _ _ => trivial)
    fun loop left t _ _ => Run.followsFrom_still fun _ => Run.preserves_pure _).of_eq rfl rfl

theorem scoping_loopStmt (form : LoopForm) (scope : Scope) :
    (loopStmt ask form scope).Follows (.scoping outer) (loopStmt ask' form scope) := by
  intro c hc
  have h := followingFlat_scoping ha
  have hopened : (header c).Inside outer := inside_reframe fun f hf => (hc f hf).openBlock
  have hheader (g : Frame) (hg : (header c).frame = some g) :
      ∀ depth ∈ g.loopDepths, depth < g.height := by
    obtain ⟨f, hf, rfl⟩ := Option.map_eq_some_iff.mp hg
    exact (hc f hf).below_openBlock
  have hclosed (t : Context) (ht : (Course.scoping outer).moves (header c) t) :
      (Course.scoping outer).moves c (t.reframe closed) :=
    scoping_opened (c := { c with loopCount := c.loopCount + 1 }) ht
  refine ((scoping_checkLoopParts ha ⟨c.loopCount + 1⟩ form scope hopened hheader).enclosed
    closeBlock_apply hclosed (fun _ _ _ => trivial) (fun _ _ _ => trivial)
    fun loop left t hmoves _ => ?_).of_eq rfl rfl
  refine (follows_light h.resembles fun hP => preserves_settleMoves hP _).bind (fun _ => ?_) t
    (hmoves hc).1
  dsimp only
  split
  · exact (follows_change h fun f => by simp).bind fun _ => Run.follows_pure _
  · exact Run.follows_pure _

/-- One step of nesting. -/
theorem scoping_step (q : Query) : (step ask q).Follows (.scoping outer) (step ask' q) :=
  have h := followingFlat_scoping ha
  h.step (scoping_checkBlock ha) (scoping_loopStmt ha) (framed_resolveAlias framed_scoping ha)
    (framed_resolveStruct framed_scoping ha) (framed_resolveGlobal framed_scoping h.toFollowing) q

end

/-- Questions that are put outside the frame may as well be refused: there are none. -/
theorem scoping_answerCut {cut : Cut} (hcut : ∀ q c, c.Inside outer → cut q c = none) (n : Nat)
    (q : Query) : (answerCut cut n q).Follows (.scoping outer) (answerTo n q) := by
  induction n generalizing q with
  | zero => exact Run.follows_stop _
  | succ n ih =>
    intro c hc
    refine (scoping_step ih q c hc).of_eq ?_ rfl
    show Asker.cutAt (step (answerCut cut n)) cut q c = step (answerCut cut n) q c
    rw [Asker.cutAt, hcut q c hc]

end Check

/-! ## Bodies and programs -/

theorem Run.Follows.holding {α : Type} {outer : Frame} {x y : Check α}
    (h : x.Follows (.scoping outer) y) : x.Follows (.holding (Context.Inside outer)) y := fun c hc =>
  (h c hc).recast (fun d hd hin => ((h c hc).moves d hd hin).1) (fun _ _ _ => trivial) id
    fun _ _ _ _ => trivial

/-- The frame that is open, if there is one, is well-scoped. -/
def Context.WellScoped (c : Context) : Prop := ∀ f, c.frame = some f → f.WellScoped

theorem Context.wellScoped_iff {c : Context} : c.WellScoped ↔ c.Inside default :=
  forall₂_congr fun _ _ => ⟨Frame.WellScoped.inside, Frame.Inside.wellScoped⟩

namespace Check

variable {α : Type} {ask ask' : Asker} {c d : Context} {n : Nat}

/-- A function begins in a block of its own. -/
theorem inside_opened (c : Context) (id : GlobalId) (returns : Ty) :
    (opened c id returns).Inside default := by
  intro f hf
  cases hf
  exact
    { (inFunction_opened c id returns).tidy.layered with
      around := List.nil_suffix
      above := Nat.zero_lt_one
      loops := ⟨[], rfl, nofun⟩
      apart := fun ids hids => by
        obtain rfl := List.mem_singleton.mp hids
        exact List.nodup_nil
      headed := nofun
      nested := .nil }

section

variable (ha : ∀ q : Query, (ask q).Follows (.scoping default) (ask' q))

include ha

theorem scoping_bodyParts (decl : Surface.FnDecl) (owner : Option StructId) (params : List Ty)
    (scope : Scope) :
    (bodyParts ask decl owner params scope).Follows (.scoping default)
      (bodyParts ask' decl owner params scope) :=
  follows_bodyParts (followingFlat_scoping ha)
    (fun name t constant => scoping_declareLocal name t constant none) decl owner params scope

theorem followingProgram_holding :
    FollowingProgram (.holding (Context.Inside default)) ask ask' := by
  have h := followingFlat_scoping ha
  have hdeclare (name : Ident) (t : Ty) (constant : Bool) :
      Run.Follows (.holding (Context.Inside default)) (declareLocal name t constant none)
        (declareLocal name t constant none) := (scoping_declareLocal name t constant none).holding
  exact
    { answers q _ := (ha q).holding
      consume value := (h.consume value).holding
      macroSigned id := (h.macroSigned id).holding
      instantiate id args span := (h.instantiate id args span).holding
      everyAnswer q := (ha q).holding
      resembles c d hcd := ⟨fun hc => (scoping_outline hcd.outline hc).1, trivial⟩
      declared decl scope := (h.declared decl scope).holding
      bodyOpened c id returns := ⟨fun _ => inside_opened c id returns, trivial⟩
      bodyClosed _ := ⟨fun _ => nofun, trivial⟩
      bodyLeft _ := trivial
      param name t := hdeclare name t false
      receiver name t := hdeclare name t true
      bodyTaken _ _ _ _ := ⟨id, trivial⟩
      accepted _ _ _ _ _ hmoves _ := ⟨hmoves, trivial, trivial⟩ }

theorem holding_checkModulesWith (files : List Surface.Module) :
    (checkModulesWith ask files).Follows (.holding (Context.Inside default))
      (checkModulesWith ask' files) := by
  have hfile (file : Surface.Module) : (declareModule file).Preserves (Context.Inside default) := by
    have hpackages (c : Context) (packages : Array Package) (hc : c.Inside default) :
        ({ c with packages } : Context).Inside default := hc
    have hadditive : Additive (Context.Inside default) :=
      ⟨fun _ _ _ _ _ hc => hc, fun _ _ _ _ hc => hc, fun _ _ _ hc => hc, fun _ _ _ hc => hc,
        fun _ _ _ _ hc => hc⟩
    refine preserves_declareModule_of (preserves_packageId hpackages) fun item _ => ?_
    exact preserves_declareItem hpackages (preserves_declareEntity hadditive item.kind) fun scope =>
      preserves_declareTemplate hpackages (fun _ _ _ hc => hc) scope
  refine Run.Follows.bind (Run.follows_forIn (fun file _ => Run.Follows.bind ?_ fun _ =>
    Run.follows_pure _) files _) fun _ => (followingProgram_holding ha).passes
  exact fun c _ => Run.followsFrom_of_same (fun d hd => hfile file hd) fun _ _ _ => trivial

end

/-- Work puts its questions, and answering them puts others, only where a property holds: it comes to
the same if all are refused elsewhere. -/
def AsksWithin (P : Context → Prop) (n : Nat) (work : Asker → Check α) (c : Context) : Prop :=
  ∀ cut : Cut, (∀ q d, P d → cut q d = none) → work (answerCut cut n) c = work (answerTo n) c

/-- A property holds wherever work puts a question, at any depth, and where it ends, whether it
succeeds or fails. -/
structure Throughout (P : Context → Prop) (n : Nat) (work : Asker → Check α) (c : Context) : Prop where
  asks : AsksWithin P n work c
  ends : ∀ d, (work (answerTo n)).Ends c d → P d

theorem throughout_of_follows {work : Asker → Check α} (hc : c.WellScoped)
    (h : ∀ {ask ask' : Asker}, (∀ q : Query, (ask q).Follows (.scoping default) (ask' q)) →
      (work ask).Follows (.holding (Context.Inside default)) (work ask')) :
    Throughout Context.WellScoped n work c := by
  have hfollows (cut : Cut) (hcut : ∀ q d, d.WellScoped → cut q d = none) :
      Run.FollowsFrom (.holding (Context.Inside default)) c (work (answerCut cut n))
        (work (answerTo n)) :=
    h (scoping_answerCut (fun q d hd => hcut q d (Context.wellScoped_iff.mpr hd)) n) c
      (Context.wellScoped_iff.mp hc)
  refine ⟨fun cut hcut => (hfollows cut hcut).same trivial, fun d hd => ?_⟩
  have hnone := hfollows (fun _ _ => none) fun _ _ _ => rfl
  exact Context.wellScoped_iff.mpr (hnone.moves d hd (Context.wellScoped_iff.mp hc))

/-- Apart from its questions a loop is what its parts are. -/
theorem loopStmt_congr {form : LoopForm} {scope : Scope}
    (h : checkLoopParts ask ⟨c.loopCount + 1⟩ form scope (header c) =
      checkLoopParts ask' ⟨c.loopCount + 1⟩ form scope (header c)) :
    loopStmt ask form scope c = loopStmt ask' form scope c := by
  show (Run.attempt (checkLoopParts ask _ form scope) >>= _) (header c) =
    (Run.attempt (checkLoopParts ask' _ form scope) >>= _) (header c)
  have hattempt : Run.attempt (checkLoopParts ask ⟨c.loopCount + 1⟩ form scope) (header c) =
      Run.attempt (checkLoopParts ask' ⟨c.loopCount + 1⟩ form scope) (header c) := by
    simp only [Run.attempt, h]
  rw [Run.bind_apply, Run.bind_apply, hattempt]

/-- Frames are well-scoped wherever a body is checked: in a new function, where a block is opened or a
local declared, and in what follows, wherever questions are put and end. All that a loop asks is asked
in the block of its header or further in, and the loops that are open there have their bodies above
that block. -/
theorem scopes_in_order (n : Nat) (c : Context) :
    (∀ id returns decl owner params scope,
      Throughout Context.WellScoped n (bodyParts · decl owner params scope) (opened c id returns)) ∧
    (c.WellScoped →
      (c.reframe Frame.openBlock).WellScoped ∧
      (∀ name t constant value d, (declareLocal name t constant value).Ends c d → d.WellScoped) ∧
      (∀ q : Query, Throughout Context.WellScoped n (fun ask => ask q) c) ∧
      (∀ files, Throughout Context.WellScoped n (checkModulesWith · files) c) ∧
      ∀ f, c.frame = some f → ∀ form scope,
        AsksWithin (fun d => ∀ g, d.frame = some g → f.Encloses g) n (loopStmt · form scope) c) := by
  refine ⟨fun id returns decl owner params scope => ?_, fun hc => ⟨?_, fun name t constant value d hd => ?_,
    fun q => ?_, fun files => ?_, fun f hf form scope cut hcut => ?_⟩⟩
  · refine throughout_of_follows (Context.wellScoped_iff.mpr (inside_opened c id returns)) fun ha => ?_
    exact (scoping_bodyParts ha decl owner params scope).holding
  · exact Context.wellScoped_iff.mpr (inside_reframe fun f hf => (hc f hf).inside.openBlock)
  · have hinside := Context.wellScoped_iff.mp hc
    exact Context.wellScoped_iff.mpr
      ((scoping_declareLocal name t constant value c hinside).moves d hd hinside).1
  · exact throughout_of_follows hc fun ha => (ha q).holding
  · exact throughout_of_follows hc fun ha => holding_checkModulesWith ha files
  · have ha : ∀ q : Query, (answerCut cut n q).Follows (.scoping f) (answerTo n q) :=
      scoping_answerCut (fun q d hd => hcut q d fun g hg => (hd g hg).toEncloses) n
    have hinside := (hc f hf).inside
    have hheader (g : Frame) (hg : (header c).frame = some g) : g = f.openBlock := by
      obtain ⟨f', hf', rfl⟩ := Option.map_eq_some_iff.mp hg
      exact congrArg Frame.openBlock (Option.some.inj (hf'.symm.trans hf))
    refine loopStmt_congr ((scoping_checkLoopParts ha _ form scope (fun g hg => ?_)
      fun g hg => ?_).same trivial) <;> rw [hheader g hg]
    · exact hinside.opened
    · exact hinside.below_openBlock

/-- `for (var x = true; x;) { while (x) { var x = false; break; } }` -/
def shadowingLoop : LoopForm :=
  let name : Surface.Expr := .mk (.path [⟨"x", .null⟩] []) .null
  let declare (value : Bool) : Surface.Stmt :=
    .mk (.decl ⟨⟨"x", .null⟩, false, none, some (.mk (.bool value) .null)⟩) .null
  let inner : Surface.Block := .mk [declare false, .mk (.brk none) .null] .null
  { init := some (declare true), condition := some name
    body := .mk [.mk (.loop none name inner) .null] .null }

/-- A function with a parameter `x` around the loop. -/
def shadowingModule : Surface.Module :=
  let loop : Surface.Stmt := .mk (.forLoop none shadowingLoop.init shadowingLoop.condition none
    shadowingLoop.body) .null
  let f : Surface.FnDecl :=
    { name := ⟨"f", .null⟩, kind := .plain, variadic := false, returns := none, span := .null
      params := [⟨⟨"x", .null⟩, .mk (.named [⟨"bool", .null⟩] []) .null⟩]
      body := some (.mk [loop] .null) }
  { file := "shadowing.own", package := ⟨"shadowing", .null⟩, imports := []
    items := [⟨.function f, [], .null⟩] }

/-- Refuses the questions that are put in some frames. -/
def refusing (frames : Frame → Bool) : Cut := fun _ d =>
  if d.frame.any frames then some default else none

/-- In the module, a question is put where the third `x` is visible, in two loops. And no question of
the loop is put in the block around it. -/
theorem scopes_in_order_shadowing :
    let c : Context := { options := .library }
    let inside : Context := opened c ⟨0⟩ Shape.void.plain
    c.WellScoped ∧ inside.WellScoped ∧
    (∀ cut : Cut, (∀ q d, d.WellScoped → cut q d = none) →
      (checkModulesWith (answerCut cut 12) [shadowingModule] c).value? = some ⟨⟩) ∧
    (checkModulesWith (answerCut (refusing fun f => f.lookup "x" = some ⟨2⟩ && f.loopDepths = [4, 2]) 12)
      [shadowingModule] c).value? = none ∧
    (loopStmt (answerCut (refusing fun f => f.height = 1) 12) shadowingLoop default
      inside).value?.isSome = true := by
  intro c inside
  have hinside : inside.WellScoped := Context.wellScoped_iff.mpr (inside_opened c ⟨0⟩ _)
  obtain ⟨-, -, -, hfiles, -⟩ := (scopes_in_order 12 c).2 nofun
  obtain ⟨-, -, -, -, hloops⟩ := (scopes_in_order 12 inside).2 hinside
  refine ⟨nofun, hinside, fun cut hcut => ?_, by decide +kernel, ?_⟩
  · have hsame : checkModulesWith (answerCut cut 12) [shadowingModule] c =
        checkModulesWith (answerTo 12) [shadowingModule] c := (hfiles _).asks cut hcut
    rw [hsame]
    decide +kernel
  · have hsame : loopStmt (answerCut (refusing fun f => f.height = 1) 12) shadowingLoop default inside =
        loopStmt (answerTo 12) shadowingLoop default inside := by
      refine hloops _ rfl shadowingLoop default _ fun q d hd => ?_
      unfold refusing
      cases hframe : d.frame with
      | none => rfl
      | some g =>
        have habove : 1 < g.height := (hd g hframe).above
        simp only [Option.any_some, decide_eq_true_eq]
        exact if_neg (Nat.ne_of_gt habove)
    rw [hsame]
    decide +kernel

end Check

end OwnLang
