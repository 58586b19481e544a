import Mathlib
import OwnLang.Proofs.Check.Declare

/-!
# What checking an expression does to the frame

An expression can move locals, and such a move may be parked with the innermost block. Nothing else
of the frame changes: `Frame.Moves` relates the frames before and after, and `answer_moves` holds of
every query that is not for a statement, whether it succeeds or fails.
-/

namespace OwnLang

/-- The same block, perhaps with more moves parked. -/
structure BlockFrame.Parks (b b' : BlockFrame) : Prop where
  locals : b'.locals = b.locals
  returned : b'.returned = b.returned
  jumpedTo : b'.jumpedTo = b.jumpedTo
  loopMoves : b.loopMoves <+: b'.loopMoves

/-- The same frame, perhaps with more locals moved. -/
structure Frame.Moves (f g : Frame) : Prop where
  function : g.function = f.function
  returns : g.returns = f.returns
  loops : g.loops = f.loops
  receiver : g.receiver = f.receiver
  unreachable : g.unreachable = f.unreachable
  size : g.locals.size = f.locals.size
  localAt : ∀ id, g.localAt id = { f.localAt id with ownership := (g.localAt id).ownership }
  ownership : ∀ id, (g.localAt id).ownership = (f.localAt id).ownership ∨
    ∃ span, (g.localAt id).ownership = .moved span
  blocks : List.Forall₂ BlockFrame.Parks f.blocks g.blocks

namespace BlockFrame

theorem Parks.refl (b : BlockFrame) : b.Parks b := ⟨rfl, rfl, rfl, List.prefix_rfl⟩

theorem Parks.trans {b b' b'' : BlockFrame} (h : b.Parks b') (h' : b'.Parks b'') : b.Parks b'' where
  locals := h'.locals.trans h.locals
  returned := h'.returned.trans h.returned
  jumpedTo := h'.jumpedTo.trans h.jumpedTo
  loopMoves := h.loopMoves.trans h'.loopMoves

theorem Parks.terminated {b b' : BlockFrame} (h : b.Parks b') : b'.terminated = b.terminated := by
  unfold BlockFrame.terminated
  rw [h.returned, h.jumpedTo]

theorem parks_trans {bs bs' bs'' : List BlockFrame} (h : List.Forall₂ Parks bs bs')
    (h' : List.Forall₂ Parks bs' bs'') : List.Forall₂ Parks bs bs'' := by
  induction h generalizing bs'' with
  | nil =>
    cases h'
    exact .nil
  | cons hb _ ih =>
    cases h' with
    | cons hb' hrest => exact .cons (hb.trans hb') (ih hrest)

end BlockFrame

namespace Frame

variable {f g : Frame}

theorem Moves.refl (f : Frame) : f.Moves f :=
  ⟨rfl, rfl, rfl, rfl, rfl, rfl, fun _ => rfl, fun _ => .inl rfl,
    List.forall₂_same.mpr fun b _ => .refl b⟩

theorem Moves.trans {k : Frame} (h : f.Moves g) (h' : g.Moves k) : f.Moves k where
  function := h'.function.trans h.function
  returns := h'.returns.trans h.returns
  loops := h'.loops.trans h.loops
  receiver := h'.receiver.trans h.receiver
  unreachable := h'.unreachable.trans h.unreachable
  size := h'.size.trans h.size
  localAt id := by
    rw [h'.localAt id, h.localAt id]
  ownership id := by
    rcases h'.ownership id with hid | hid
    · rw [hid]
      exact h.ownership id
    · exact .inr hid
  blocks := BlockFrame.parks_trans h.blocks h'.blocks

theorem moves_modifyLocal (f : Frame) (id : LocalId) (span : Span) :
    f.Moves (f.modifyLocal id fun l => { l with ownership := .moved span }) := by
  have hlocal (other : LocalId) :
      (f.modifyLocal id fun l => { l with ownership := .moved span }).localAt other =
        if id.index = other.index ∧ other.index < f.locals.size then
          { f.localAt other with ownership := .moved span } else f.localAt other := by
    unfold localAt modifyLocal
    rw [Array.getElem?_modify]
    by_cases hin : other.index < f.locals.size
    · by_cases hid : id.index = other.index <;> simp [hin, hid]
    · simp [hin]
  refine ⟨rfl, rfl, rfl, rfl, rfl, by simp [modifyLocal], fun other => ?_, fun other => ?_,
    List.forall₂_same.mpr fun b _ => .refl b⟩
  · rw [hlocal]
    split <;> rfl
  · rw [hlocal]
    split
    · exact .inr ⟨span, rfl⟩
    · exact .inl rfl

theorem moves_parkMove {move : LoopMove} (h : Check.parkMove f move = .ok g) : f.Moves g := by
  unfold Check.parkMove at h
  split at h
  · cases h
    exact .refl f
  · split at h
    · cases h
      exact .refl f
    · split at h
      · cases h
      · cases h
        unfold modifyTop
        split
        · exact .refl f
        · rename_i block rest hblocks
          refine ⟨rfl, rfl, rfl, rfl, rfl, rfl, fun _ => rfl, fun _ => .inl rfl, ?_⟩
          rw [hblocks]
          exact .cons ⟨rfl, rfl, rfl, List.prefix_append _ _⟩
            (List.forall₂_same.mpr fun b _ => .refl b)

end Frame

namespace Check

/-- The frame is that of another context, perhaps with more locals moved. -/
def FrameMoved (origin c : Context) : Prop := Option.Rel Frame.Moves origin.frame c.frame

variable {ask : Asker} {origin : Context}

theorem FrameMoved.refl (c : Context) : FrameMoved c c := by
  unfold FrameMoved
  cases c.frame with
  | none => exact .none
  | some f => exact .some (.refl f)

theorem FrameMoved.trans {c d : Context} (h : FrameMoved origin c) (h' : FrameMoved c d) :
    FrameMoved origin d := by
  unfold FrameMoved at *
  generalize origin.frame = o at h ⊢
  generalize c.frame = o' at h h'
  cases h with
  | none => exact h'
  | some hf =>
    generalize d.frame = o'' at h' ⊢
    cases h' with
    | some hg => exact .some (hf.trans hg)

theorem frameMoved_detached {α : Type} (work : Check α) :
    (detached work).Preserves (FrameMoved origin) := by
  intro c d hd hc
  unfold detached at hd
  obtain ⟨e, -, rfl⟩ := Run.ends_andFinally hd
  exact hc

theorem frameMoved_consume (value : Core.Expr) : (consume value).Preserves (FrameMoved origin) := by
  unfold consume
  split
  · exact Run.preserves_pure _
  split
  · exact Run.preserves_pure _
  split
  case h_2 => exact Run.preserves_reject _ _
  case h_1 id _ =>
    refine Run.Preserves.bind ?_ fun _ => ?_
    · refine Run.preserves_modify fun c hc => hc.trans ?_
      unfold FrameMoved
      cases c.frame with
      | none => exact .none
      | some f => exact .some (f.moves_modifyLocal id _)
    · intro c d hd hc
      obtain hend | ⟨f, c₁, hframe, hend⟩ := Run.ends_bind hd
      · exact preserves_frame hend hc
      cases hframe
      obtain hend' | ⟨parked, c₁, hpark, hend'⟩ := Run.ends_bind hend
      · exact Run.preserves_ofExcept _ hend' hc
      obtain ⟨hpark, rfl⟩ := Run.ofExcept_eq_ok.mp hpark
      rw [Run.ends_modify hend']
      refine hc.trans ?_
      unfold FrameMoved
      cases hf : c₁.frame with
      | none => exact .none
      | some f =>
        rw [hf] at hpark
        exact .some (Frame.moves_parkMove hpark)

theorem frameMoved_additive : Additive (FrameMoved origin) where
  global _ _ _ _ _ hc := hc
  struct _ _ _ _ hc := hc
  member _ _ _ hc := hc
  typeAlias _ _ _ hc := hc
  macroDef _ _ _ _ hc := hc

theorem frameMoved_stable (ha : ∀ q : Query, q.isExpr → (ask q).Preserves (FrameMoved origin)) :
    Stable ask (FrameMoved origin) where
  answers := ha
  detached _ := frameMoved_detached _
  consume := frameMoved_consume
  aliasStarted _ _ hc := hc
  aliasDone _ _ _ hc := hc
  structResolved := preserves_resolveStruct ha (fun _ => frameMoved_detached _) (fun _ _ hc => hc)
    fun _ _ _ hc => hc
  macroDone _ _ _ _ hc := hc
  instantiate := preserves_instantiate frameMoved_additive ha (fun _ => frameMoved_detached _)
    (fun _ _ _ hc => hc) fun _ _ _ hc => hc

/-- Everything that checking an expression changes in the frame is which locals are moved. -/
theorem answerTo_moves (n : Nat) (q : Query) (hq : q.isExpr) :
    (answerTo n q).Preserves (FrameMoved origin) := by
  induction n generalizing q with
  | zero => exact Run.preserves_stop _
  | succ n ih =>
    exact (frameMoved_stable ih).step
      (preserves_resolveGlobal (frameMoved_stable ih) (fun _ _ hc => hc) fun _ _ _ _ hc => hc) q hq

end Check

end OwnLang
