import Mathlib
import OwnLang.Proofs.Check.Inversion
import OwnLang.Proofs.Check.Moves

/-!
# What checking a statement does to the frame

Checking a statement declares locals, moves them, parks moves and marks loops that a `break` leaves.
What it never does is to change what is known of a local beside its ownership, or to open or close a
block or a loop for those that come behind it: `Frame.Advances` relates the frames before and after
a statement, and `Frame.Rests` those before and after a block, whose own block is closed again.
-/

namespace OwnLang

/-- The same loop, perhaps left by a reachable `break` by now. -/
structure LoopFrame.Grows (l l' : LoopFrame) : Prop where
  id : l'.id = l.id
  label : l'.label = l.label
  bodyDepth : l'.bodyDepth = l.bodyDepth
  hasBreak : l.hasBreak = true → l'.hasBreak = true

/-- What checking keeps of a frame, its blocks aside. -/
structure Frame.Grows (f g : Frame) : Prop where
  function : g.function = f.function
  returns : g.returns = f.returns
  receiver : g.receiver = f.receiver
  unreachable : g.unreachable = f.unreachable
  size : f.locals.size ≤ g.locals.size
  localAt : ∀ id : LocalId, id.index < f.locals.size →
    g.localAt id = { f.localAt id with ownership := (g.localAt id).ownership }
  loops : List.Forall₂ LoopFrame.Grows f.loops g.loops

/-- What checking a block keeps. -/
structure Frame.Rests (f g : Frame) : Prop extends Frame.Grows f g where
  blocks : List.Forall₂ BlockFrame.Parks f.blocks g.blocks

/-- What checking a statement keeps. -/
structure Frame.Advances (f g : Frame) : Prop extends Frame.Grows f g where
  height : g.height = f.height
  below : List.Forall₂ BlockFrame.Parks f.blocks.tail g.blocks.tail
  locals : ∃ added, g.top.locals = added ++ f.top.locals ∧
    ∀ id ∈ added, f.locals.size ≤ id.index ∧ id.index < g.locals.size ∧
      (g.localAt id).depth = f.height - 1

theorem LoopFrame.Grows.refl (l : LoopFrame) : l.Grows l := ⟨rfl, rfl, rfl, fun h => h⟩

theorem LoopFrame.Grows.trans {l l' l'' : LoopFrame} (h : l.Grows l') (h' : l'.Grows l'') :
    l.Grows l'' :=
  ⟨h'.id.trans h.id, h'.label.trans h.label, h'.bodyDepth.trans h.bodyDepth,
    h'.hasBreak ∘ h.hasBreak⟩

namespace Frame

variable {f g k : Frame}

/-! ## The innermost block -/

section

variable (f : Frame) (change : BlockFrame → BlockFrame)

@[simp] theorem modifyTop_function : (f.modifyTop change).function = f.function := by
  unfold modifyTop
  split <;> rfl

@[simp] theorem modifyTop_returns : (f.modifyTop change).returns = f.returns := by
  unfold modifyTop
  split <;> rfl

@[simp] theorem modifyTop_receiver : (f.modifyTop change).receiver = f.receiver := by
  unfold modifyTop
  split <;> rfl

@[simp] theorem modifyTop_unreachable : (f.modifyTop change).unreachable = f.unreachable := by
  unfold modifyTop
  split <;> rfl

@[simp] theorem modifyTop_locals : (f.modifyTop change).locals = f.locals := by
  unfold modifyTop
  split <;> rfl

@[simp] theorem modifyTop_loops : (f.modifyTop change).loops = f.loops := by
  unfold modifyTop
  split <;> rfl

@[simp] theorem modifyTop_localAt (id : LocalId) : (f.modifyTop change).localAt id = f.localAt id := by
  unfold localAt
  rw [modifyTop_locals]

@[simp] theorem modifyTop_height : (f.modifyTop change).height = f.height := by
  unfold modifyTop height
  split
  · rfl
  · rename_i hblocks
    rw [hblocks]
    rfl

@[simp] theorem modifyTop_below : (f.modifyTop change).blocks.tail = f.blocks.tail := by
  unfold modifyTop
  split
  · rfl
  · rename_i hblocks
    rw [hblocks]
    rfl

end

theorem modifyTop_top {change : BlockFrame → BlockFrame} (h : f.blocks ≠ []) :
    (f.modifyTop change).top = change f.top := by
  unfold modifyTop top
  split
  · exact absurd ‹_› h
  · rename_i hblocks
    rw [hblocks]
    rfl

/-! ## Relations between frames -/

theorem parks_refl (bs : List BlockFrame) : List.Forall₂ BlockFrame.Parks bs bs :=
  List.forall₂_same.mpr fun b _ => .refl b

theorem loops_refl (ls : List LoopFrame) : List.Forall₂ LoopFrame.Grows ls ls :=
  List.forall₂_same.mpr fun l _ => .refl l

theorem loops_trans {ls ls' ls'' : List LoopFrame} (h : List.Forall₂ LoopFrame.Grows ls ls')
    (h' : List.Forall₂ LoopFrame.Grows ls' ls'') : List.Forall₂ LoopFrame.Grows ls ls'' := by
  induction h generalizing ls'' with
  | nil =>
    cases h'
    exact .nil
  | cons hl _ ih =>
    cases h' with
    | cons hl' hrest => exact .cons (hl.trans hl') (ih hrest)

theorem mem_loops {ls ls' : List LoopFrame} (h : List.Forall₂ LoopFrame.Grows ls ls')
    {l : LoopFrame} (hl : l ∈ ls) : ∃ l' ∈ ls', l.Grows l' := by
  induction h with
  | nil => cases hl
  | cons hgrows _ ih =>
    rcases List.mem_cons.mp hl with rfl | hl
    · exact ⟨_, List.mem_cons_self, hgrows⟩
    · obtain ⟨l', hl', hgrows'⟩ := ih hl
      exact ⟨l', List.mem_cons_of_mem _ hl', hgrows'⟩

theorem loops_ids {ls ls' : List LoopFrame} (h : List.Forall₂ LoopFrame.Grows ls ls') :
    ls'.map (·.id) = ls.map (·.id) := by
  induction h with
  | nil => rfl
  | cons hgrows _ ih => rw [List.map_cons, List.map_cons, hgrows.id, ih]

theorem Grows.refl (f : Frame) : f.Grows f :=
  ⟨rfl, rfl, rfl, rfl, le_rfl, fun _ _ => rfl, loops_refl _⟩

theorem Grows.trans (h : f.Grows g) (h' : g.Grows k) : f.Grows k where
  function := h'.function.trans h.function
  returns := h'.returns.trans h.returns
  receiver := h'.receiver.trans h.receiver
  unreachable := h'.unreachable.trans h.unreachable
  size := h.size.trans h'.size
  localAt id hid := by
    rw [h'.localAt id (hid.trans_le h.size), h.localAt id hid]
  loops := loops_trans h.loops h'.loops

theorem Rests.refl (f : Frame) : f.Rests f := ⟨.refl f, parks_refl _⟩

theorem Rests.trans (h : f.Rests g) (h' : g.Rests k) : f.Rests k :=
  ⟨h.toGrows.trans h'.toGrows, BlockFrame.parks_trans h.blocks h'.blocks⟩

theorem Rests.top (h : f.Rests g) : f.top.Parks g.top := by
  have hblocks := h.blocks
  unfold Frame.top
  generalize f.blocks = bs at hblocks ⊢
  generalize g.blocks = bs' at hblocks ⊢
  cases hblocks with
  | nil => exact .refl _
  | cons hb _ => exact hb

theorem Rests.advances (h : f.Rests g) : f.Advances g where
  toGrows := h.toGrows
  height := h.blocks.length_eq.symm
  below := by
    have hblocks := h.blocks
    generalize f.blocks = bs at hblocks ⊢
    generalize g.blocks = bs' at hblocks ⊢
    cases hblocks with
    | nil => exact .nil
    | cons _ hrest => exact hrest
  locals := ⟨[], h.top.locals, fun _ hid => absurd hid List.not_mem_nil⟩

theorem Moves.rests (h : f.Moves g) : f.Rests g where
  function := h.function
  returns := h.returns
  receiver := h.receiver
  unreachable := h.unreachable
  size := h.size.ge
  localAt id _ := h.localAt id
  loops := h.loops ▸ loops_refl _
  blocks := h.blocks

theorem Advances.refl (f : Frame) : f.Advances f := (Rests.refl f).advances

theorem Advances.trans (h : f.Advances g) (h' : g.Advances k) : f.Advances k where
  toGrows := h.toGrows.trans h'.toGrows
  height := h'.height.trans h.height
  below := BlockFrame.parks_trans h.below h'.below
  locals := by
    obtain ⟨added, hadded, hfresh⟩ := h.locals
    obtain ⟨added', hadded', hfresh'⟩ := h'.locals
    refine ⟨added' ++ added, by rw [hadded', hadded, List.append_assoc], fun id hid => ?_⟩
    rcases List.mem_append.mp hid with hid | hid
    · obtain ⟨hle, hlt, hdepth⟩ := hfresh' id hid
      exact ⟨h.size.trans hle, hlt, by rw [hdepth, h.height]⟩
    · obtain ⟨hle, hlt, hdepth⟩ := hfresh id hid
      refine ⟨hle, hlt.trans_le h'.size, ?_⟩
      rw [h'.localAt id hlt]
      exact hdepth

/-- A change of the innermost block that leaves its locals alone. -/
theorem advances_modifyTop (f : Frame) {change : BlockFrame → BlockFrame}
    (h : ∀ b, (change b).locals = b.locals) : f.Advances (f.modifyTop change) where
  function := modifyTop_function f change
  returns := modifyTop_returns f change
  receiver := modifyTop_receiver f change
  unreachable := modifyTop_unreachable f change
  size := (congrArg Array.size (modifyTop_locals f change)).ge
  localAt id _ := by rw [modifyTop_localAt]
  loops := modifyTop_loops f change ▸ loops_refl _
  height := modifyTop_height f change
  below := modifyTop_below f change ▸ parks_refl _
  locals := by
    refine ⟨[], ?_, fun _ hid => absurd hid List.not_mem_nil⟩
    unfold modifyTop top
    split
    · rfl
    · rename_i hblocks
      rw [hblocks]
      exact h _

/-- Moves that are handed to the innermost block only add to it. -/
theorem rests_modifyTop (f : Frame) (moves : List LoopMove) :
    f.Rests (f.modifyTop fun b => { b with loopMoves := b.loopMoves ++ moves }) := by
  refine ⟨(f.advances_modifyTop (by intro b; rfl)).toGrows, ?_⟩
  unfold modifyTop
  split
  · exact parks_refl _
  · rename_i hblocks
    rw [hblocks]
    exact .cons ⟨rfl, rfl, rfl, List.prefix_append _ _⟩ (parks_refl _)

/-- A block that is opened and closed again. -/
theorem Advances.closed (h : f.openBlock.Advances g) : f.Rests (Check.closed g) :=
  ⟨⟨h.function, h.returns, h.receiver, h.unreachable, h.size, h.localAt, h.loops⟩, h.below⟩

/-- A loop that is opened and closed again. -/
theorem Advances.leaveLoop {form : Check.LoopForm} {id : LoopId}
    (h : (form.enter id f).Advances g) : f.Advances (Check.leaveLoop g) := by
  refine ⟨⟨h.function, h.returns, h.receiver, h.unreachable, h.size, h.localAt, ?_⟩, h.height,
    h.below, h.locals⟩
  have hloops := h.loops
  unfold Check.LoopForm.enter at hloops
  unfold Check.leaveLoop
  generalize g.loops = ls at hloops ⊢
  cases hloops with
  | cons _ hrest => exact hrest

/-- A region that is opened and closed again. -/
theorem Rests.leaveUnreachable
    (h : ({ f with unreachable := f.unreachable + 1 } : Frame).Rests g) :
    f.Rests (Check.leaveUnreachable g) := by
  refine ⟨⟨h.function, h.returns, h.receiver, ?_, h.size, h.localAt, h.loops⟩, h.blocks⟩
  have hunreachable := h.unreachable
  unfold Check.leaveUnreachable
  dsimp only at hunreachable ⊢
  omega

theorem Advances.leaveUnreachable
    (h : ({ f with unreachable := f.unreachable + 1 } : Frame).Advances g) :
    f.Advances (Check.leaveUnreachable g) := by
  refine ⟨⟨h.function, h.returns, h.receiver, ?_, h.size, h.localAt, h.loops⟩, h.height, h.below,
    h.locals⟩
  have hunreachable := h.unreachable
  unfold Check.leaveUnreachable
  dsimp only at hunreachable ⊢
  omega

/-! ## What statements do -/

theorem localAt_push_of_lt {l : Local} {id : LocalId} (h : id.index < f.locals.size) :
    (f.locals.push l)[id.index]?.getD default = f.localAt id := by
  unfold localAt
  rw [Array.getElem?_push_lt h, Array.getElem?_eq_getElem h]

theorem advances_declare (f : Frame) {l : Local} (hl : l.depth = f.height - 1) :
    f.Advances (Check.declare l f) := by
  unfold Check.declare
  refine ⟨⟨?_, ?_, ?_, ?_, ?_, fun id hid => ?_, ?_⟩, ?_, ?_, ?_⟩
  · rw [modifyTop_function]
  · rw [modifyTop_returns]
  · rw [modifyTop_receiver]
  · rw [modifyTop_unreachable]
  · rw [modifyTop_locals, Array.size_push]
    omega
  · rw [modifyTop_localAt]
    exact (localAt_push_of_lt hid).trans (by rw [← localAt_push_of_lt (l := l) hid]; rfl)
  · rw [modifyTop_loops]
    exact loops_refl _
  · rw [modifyTop_height]
    rfl
  · rw [modifyTop_below]
    exact parks_refl _
  · cases hblocks : f.blocks with
    | nil =>
      refine ⟨[], ?_, fun _ hid => absurd hid List.not_mem_nil⟩
      simp [modifyTop, hblocks, top]
    | cons block rest =>
      refine ⟨[⟨f.locals.size⟩], ?_, fun id hid => ?_⟩
      · simp [modifyTop, hblocks, top]
      · obtain rfl := List.mem_singleton.mp hid
        rw [modifyTop_locals, Array.size_push, modifyTop_localAt]
        refine ⟨le_rfl, Nat.lt_succ_self _, ?_⟩
        simpa [localAt] using hl

theorem terminated_declare (f : Frame) (l : Local) :
    (Check.declare l f).top.terminated = f.top.terminated := by
  cases hblocks : f.blocks with
  | nil => simp [Check.declare, modifyTop, top, hblocks]
  | cons block rest => simp [Check.declare, modifyTop, top, hblocks, BlockFrame.terminated]

theorem terminated_own (f : Frame) (id : LocalId) :
    (Check.own id f).top.terminated = f.top.terminated := by
  cases hblocks : f.blocks with
  | nil => simp [Check.own, modifyTop, modifyLocal, top, hblocks]
  | cons block rest =>
    simp [Check.own, modifyTop, modifyLocal, top, hblocks, BlockFrame.terminated]

theorem modifyLocal_localAt (f : Frame) (id : LocalId) (change : Local → Local) (other : LocalId) :
    (f.modifyLocal id change).localAt other =
      if id.index = other.index ∧ other.index < f.locals.size then change (f.localAt other)
      else f.localAt other := by
  unfold localAt modifyLocal
  rw [Array.getElem?_modify]
  by_cases hin : other.index < f.locals.size
  · by_cases hid : id.index = other.index <;> simp [hin, hid]
  · simp [hin]

theorem advances_modifyLocal (f : Frame) (id : LocalId) (o : Ownership) :
    f.Advances (f.modifyLocal id fun l => { l with ownership := o }) where
  function := rfl
  returns := rfl
  receiver := rfl
  unreachable := rfl
  size := by simp [modifyLocal]
  localAt other _ := by
    rw [modifyLocal_localAt]
    split <;> rfl
  loops := loops_refl _
  height := rfl
  below := parks_refl _
  locals := ⟨[], rfl, fun _ hid => absurd hid List.not_mem_nil⟩

theorem advances_own (f : Frame) (id : LocalId) : f.Advances (Check.own id f) :=
  (f.advances_modifyTop (by intro b; rfl)).trans (advances_modifyLocal _ id .owns)

theorem advances_jumpLeaves (f : Frame) (jump : Check.Jump) (i : Nat) :
    f.Advances (Check.jumpLeaves f jump i) := by
  unfold Check.jumpLeaves
  split
  · refine ⟨⟨rfl, rfl, rfl, rfl, le_rfl, fun _ _ => rfl, ?_⟩, rfl, parks_refl _, [], rfl,
      fun _ hid => absurd hid List.not_mem_nil⟩
    rw [List.forall₂_iff_get]
    refine ⟨(List.length_modify ..).symm, fun j hj hj' => ?_⟩
    simp only [List.get_eq_getElem, List.getElem_modify]
    split
    · exact ⟨rfl, rfl, rfl, fun _ => rfl⟩
    · exact .refl _
  · exact .refl f

/-- Moves that are handed to a block only add to it. -/
theorem rests_modifyBlock (f : Frame) (depth : Nat) (moves : List LoopMove) :
    f.Rests (f.modifyBlock depth fun b => { b with loopMoves := b.loopMoves ++ moves }) := by
  refine ⟨⟨rfl, rfl, rfl, rfl, le_rfl, fun _ _ => rfl, loops_refl _⟩, ?_⟩
  unfold modifyBlock
  rw [List.forall₂_iff_get]
  refine ⟨(List.length_modify ..).symm, fun j hj hj' => ?_⟩
  simp only [List.get_eq_getElem, List.getElem_modify]
  split
  · exact ⟨rfl, rfl, rfl, List.prefix_append _ _⟩
  · exact .refl _

theorem rests_carryMoves {jump : Check.Jump} {loop : LoopFrame}
    (h : Check.carryMoves f jump loop = .ok g) : f.Rests g := by
  unfold Check.carryMoves at h
  dsimp only at h
  split at h
  · cases h
  · cases h
    exact .refl f
  · cases h
    split
    · exact .refl f
    · exact f.rests_modifyBlock _ _

end Frame

end OwnLang
