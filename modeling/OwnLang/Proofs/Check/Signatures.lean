import Mathlib
import OwnLang.Proofs.Check.CutShort

/-!
# Signatures of macros

A macro is not marked while its signature is resolved, so work that is nested in its resolution may
resolve it as well. Whatever happens, its state only goes forward (`MacroLaw.forward`). Where nothing
else is said of macros, their signatures are followed as everything else is (`MacroLaw.Lenient`), also
by answers that may nest deeper.
-/

namespace OwnLang

namespace Check

variable {ask ask' : Asker} {c d : Context}

/-- A parameter of a macro. -/
def macroParam (ask : Asker) (scope : Scope) (p : Surface.MacroParam) : Check MacroParam := do
  return { constant := p.constant, type := ← paramType ask p.type scope }

/-- The types of the parameters of a macro, and the type that it returns. -/
def macroSignature (ask : Asker) (decl : Surface.MacroDecl) (scope : Scope) :
    Check (List MacroParam × Ty) := do
  let params ← decl.params.mapM (macroParam ask scope)
  let returns ← returnType ask decl.returns scope
  return (params, returns)

/-- The context once the signature of a macro is resolved. -/
def signed (c : Context) (id : MacroId) (params : List MacroParam) (returns : Ty) : Context :=
  c.modifyMacro id fun m => { m with params, returns, state := .complete }

theorem resolveMacro_eq (ask : Asker) (id : MacroId) : resolveMacro ask id = (do
    let m := (← get).macroDef id
    if m.state = .complete then return ()
    let (params, returns) ← macroSignature ask m.decl m.scope
    modify fun c => signed c id params returns) := by
  simp only [resolveMacro, macroSignature, bind_assoc, pure_bind]
  rfl

theorem follows_macroSignature {C : Course Context}
    (ha : ∀ q : Query, q.isExpr → (ask q).Follows C (ask' q)) (decl : Surface.MacroDecl)
    (scope : Scope) : (macroSignature ask decl scope).Follows C (macroSignature ask' decl scope) :=
  (Run.follows_mapM (fun p => ((follows_paramType ha p.type scope).bind fun _ =>
    Run.follows_pure _ : (macroParam ask scope p).Follows C (macroParam ask' scope p))) _).bind
      fun _ => (follows_returnType ha _ _).bind fun _ => Run.follows_pure _

theorem mapM_macroParam {l : List Surface.MacroParam} {scope : Scope} {params : List MacroParam}
    (h : l.mapM (macroParam ask scope) c = .ok params d) :
    params.map (·.constant) = l.map (·.constant) := by
  induction l generalizing c params with
  | nil =>
    cases h
    rfl
  | cons p l ih =>
    rw [List.mapM_cons] at h
    obtain ⟨param, e, hparam, h⟩ := Run.bind_eq_ok.mp h
    obtain ⟨rest, f, hrest, hreturn⟩ := Run.bind_eq_ok.mp h
    obtain ⟨t, e', -, hreturn'⟩ := Run.bind_eq_ok.mp hparam
    cases hreturn
    cases hreturn'
    simp [ih hrest]

/-- A macro has the parameters that are written. -/
theorem macroSignature_constants {decl : Surface.MacroDecl} {scope : Scope}
    {params : List MacroParam} {returns : Ty}
    (h : macroSignature ask decl scope c = .ok (params, returns) d) :
    params.map (·.constant) = decl.params.map (·.constant) := by
  obtain ⟨params, e, hparams, h⟩ := Run.bind_eq_ok.mp h
  obtain ⟨returns, f, -, hreturn⟩ := Run.bind_eq_ok.mp h
  cases hreturn
  exact mapM_macroParam hparams

end Check

/-! ## Macros that only go forward -/

/-- The macro has the same declaration, and is complete if it was. -/
structure MacroDef.Forwards (a b : MacroDef) : Prop where
  declared : MacroDef.resolvable.declared b = MacroDef.resolvable.declared a
  complete : a.state = .complete → b.state = .complete

theorem MacroDef.Forwards.refl (m : MacroDef) : m.Forwards m := ⟨rfl, id⟩

theorem MacroDef.Forwards.trans {a b c : MacroDef} (h : a.Forwards b) (h' : b.Forwards c) :
    a.Forwards c := ⟨h'.declared.trans h.declared, fun ha => h'.complete (h.complete ha)⟩

theorem MacroDef.Forwards.written {a b : MacroDef} (h : a.Forwards b) :
    b.decl = a.decl ∧ b.scope = a.scope := by
  have hdecl := congrArg MacroDef.decl h.declared
  have hscope := congrArg MacroDef.scope h.declared
  exact ⟨hdecl, hscope⟩

/-- The macros have gone forward, and what is known of them is there exactly if they are complete. -/
structure Context.Forwards (c d : Context) : Prop where
  macros : Retained MacroDef.Forwards c.macros d.macros
  signed : (∀ m ∈ c.macros, m.Signed) → ∀ m ∈ d.macros, m.Signed

theorem Context.forwards_of_eq {c d : Context} (h : d.macros = c.macros) : c.Forwards d :=
  ⟨h ▸ .refl .refl _, h ▸ id⟩

theorem Context.Forwards.trans {c d e : Context} (h : c.Forwards d) (h' : d.Forwards e) :
    c.Forwards e := ⟨h.macros.trans .trans h'.macros, fun hc => h'.signed (h.signed hc)⟩

theorem MacroDef.Fresh.signed {m : MacroDef} (h : m.Fresh) : m.Signed where
  filled hcomplete := by
    have hstate : m.state = .complete := hcomplete
    simp [h.state] at hstate
  blank _ := h.blank
  unmarked := by simp [h.state]

/-- Whatever becomes of macros, they go forward. -/
def MacroLaw.forward : MacroLaw where
  ready _ := True
  moves c d := c.Forwards d
  done c d := d.macros.size = c.macros.size
  after c d := c.Forwards d
  still _ h _ := ⟨Context.forwards_of_eq h, by rw [h]⟩
  declared {c d m} _ hm h _ := by
    refine ⟨h ▸ (Retained.refl .refl c.macros).push m, fun hc m' hm' => ?_⟩
    rw [h] at hm'
    rcases Array.mem_push.mp hm' with hm' | rfl
    · exact hc m' hm'
    · exact hm.signed
  detached h := ⟨h.macros, h.signed⟩
  detached_done h := h
  detached_after _ h := ⟨h.macros, h.signed⟩
  moves_trans _ h h' := h.trans h'
  done_trans h h' := h'.trans h
  ready_done _ _ _ := trivial
  after_of_moves h := h
  after_trans h h' := h.trans h'

namespace Check

variable {ask ask' : Asker} {c d : Context}

/-- A macro that was declared is complete once it is resolved. -/
theorem complete_resolveMacro {id : MacroId} (h : resolveMacro ask id c = .ok ⟨⟩ d)
    (hsize : d.macros.size = c.macros.size) (hid : id.index < c.macros.size) :
    (d.macroDef id).state = .complete := by
  rw [resolveMacro_eq] at h
  obtain ⟨_, _, hget, h⟩ := Run.bind_eq_ok.mp h
  cases hget
  dsimp only at h
  split at h
  · cases h
    assumption
  · obtain ⟨⟨params, returns⟩, e, -, hwrite⟩ := Run.bind_eq_ok.mp h
    cases hwrite
    have he : e.macros.size = c.macros.size := Array.size_modify.symm.trans hsize
    unfold signed
    rw [Context.macroDef_modifyMacro, if_pos ⟨rfl, hid.trans_eq he.symm⟩]

theorem forwards_signed {id : MacroId} {params : List MacroParam} {returns : Ty}
    (hparams : id.index < d.macros.size →
      params.map (·.constant) = (d.macroDef id).decl.params.map (·.constant)) :
    d.Forwards (signed d id params returns) := by
  refine ⟨(Retained.refl .refl d.macros).modify fun m m' _ _ h => ⟨h.declared, fun _ => rfl⟩,
    fun hd m hm => ?_⟩
  dsimp only [signed, Context.modifyMacro] at hm
  obtain hm | ⟨m', hm', rfl⟩ := mem_modify hm
  · exact hd m hm
  · have hmacro : d.macroDef id = m' := by simp [Context.macroDef, hm']
    refine ⟨⟨fun _ => ?_, fun hstate => absurd rfl hstate⟩, by simp⟩
    exact hmacro ▸ hparams (Array.getElem?_eq_some_iff.mp hm').1

theorem continues_signed (d : Context) (id : MacroId) (params : List MacroParam) (returns : Ty) :
    d.Continues Resolvable.Spares (signed d id params returns) :=
  { Context.Continues.refl .refl d with }

end Check

/-- Nothing is said of macros, but no function is open. -/
def MacroLaw.outside : MacroLaw where
  ready c := c.frame = none
  moves c d := c.frame = none → d.frame = none
  done _ _ := True
  after _ _ := True
  still _ _ hframe := ⟨hframe, trivial⟩
  declared _ _ _ hframe := fun hc => hframe.trans hc
  detached _ hc := hc
  detached_done _ := trivial
  detached_after _ _ := trivial
  moves_trans _ h h' hc := h' (h hc)
  done_trans _ _ := trivial
  ready_done hc h _ := h hc
  after_of_moves _ := trivial
  after_trans _ _ := trivial

/-- Signatures of macros are followed wherever the answers are. -/
def MacroLaw.Lenient (M : MacroLaw) : Prop :=
  ∀ {ask ask' : Asker}, (∀ q : Query, q.isExpr → (ask q).Follows (.resolution M) (ask' q)) → ∀ id,
    (Check.resolveMacro ask id).Follows (.resolution M) (Check.resolveMacro ask' id)

namespace Check

open MacroLaw (Lenient)

/-- A macro that is not complete is written when its signature is found out, whatever nested work has
made of it. -/
theorem follows_resolveMacro {M : MacroLaw} {ask ask' : Asker}
    (ha : ∀ q : Query, q.isExpr → (ask q).Follows (.resolution M) (ask' q))
    (hsigned : ∀ {c d : Context} {id params returns}, (Course.resolution M).ready c →
      (c.macroDef id).state ≠ .complete →
        macroSignature ask' (c.macroDef id).decl (c.macroDef id).scope c = .ok (params, returns) d →
          M.Moves c d → M.done c d → M.moves c (signed d id params returns) ∧
            M.done c (signed d id params returns) ∧ M.after d (signed d id params returns))
    (id : MacroId) : (resolveMacro ask id).Follows (.resolution M) (resolveMacro ask' id) := by
  intro c hc
  rw [resolveMacro_eq, resolveMacro_eq]
  refine Run.followsFrom_get_bind ?_
  dsimp only
  split
  · exact Run.follows_pure _ c hc
  · rename_i hstate
    refine ((follows_macroSignature ha _ _ c hc).written (fun d _ hd => hd)
      (fun (params, returns) d e hsig hmoves hdone he => ?_)
        fun (params, returns) d _ e hsig hmoves hdone he => ?_).of_eq rfl rfl
    · obtain ⟨hmacros, -, hafter⟩ := hsigned hc hstate hsig hmoves hdone
      obtain rfl := Run.ends_modify he
      have hcontinues := continues_signed d id params returns
      exact ⟨⟨hmoves.spares.trans .trans hcontinues, fun hc => { hmoves.orderly hc with }, hmacros⟩,
        hcontinues.progresses, hafter⟩
    · obtain rfl := Run.ends_modify (Run.ends_of_ok he)
      exact (hsigned hc hstate hsig hmoves hdone).2.1

theorem lenient_forward : Lenient .forward := by
  intro ask ask' ha
  refine follows_resolveMacro ha fun {c d id params returns} _ _ hsig hmoves hdone => ?_
  have hwritten : d.Forwards (signed d id params returns) := by
    refine forwards_signed fun hid => ?_
    have hkept := hmoves.macros.macros.getD (hid.trans_eq hdone)
    rw [macroSignature_constants hsig]
    exact congrArg (fun decl : Surface.MacroDecl => decl.params.map (·.constant)) hkept.written.1.symm
  exact ⟨hmoves.macros.trans hwritten, Array.size_modify.trans hdone, hwritten⟩

theorem lenient_outside : Lenient .outside :=
  fun ha => follows_resolveMacro ha fun _ _ _ hmoves _ => ⟨hmoves.macros, trivial, trivial⟩

section

variable {M : MacroLaw} {cut cut' : Cut} (hM : M.Lenient) (hcut : cut'.Within cut)

include hM hcut

/-- Answers that are cut short are followed by the answers that are cut short later. -/
theorem lenient_answerCut (n : Nat) (q : Query) (hq : q.isExpr) :
    (answerCut cut n q).Follows (.resolution M) (answerCut cut' n q) :=
  follows_answerCut hcut (fun _ _ ha => hM ha) le_rfl q hq

/-- Answers are followed by the answers that may need others deeper. -/
theorem lenient_deeper {n n' : Nat} (hn : n ≤ n') (q : Query) (hq : q.isExpr) :
    (answerCut cut n q).Follows (.resolution M) (answerCut cut' n' q) := by
  induction n generalizing n' q with
  | zero =>
    intro c hc
    have hwithin : cut'.Within cut' := fun _ _ h => h
    have hself := lenient_answerCut hM hwithin n' q hq c hc
    exact ⟨.inr (.inl ⟨_, rfl⟩), hself.moves, hself.done, False.elim⟩
  | succ n ih =>
    obtain ⟨k, rfl⟩ := Nat.exists_eq_succ_of_ne_zero (Nat.ne_of_gt (Nat.lt_of_lt_of_le n.succ_pos hn))
    have ha := ih (Nat.le_of_succ_le_succ hn)
    exact follows_cutAt hcut
      (follows_step (following_resolution ha (hM ha)) (unnamed_answerCut cut' k) q hq)

end

end Check

end OwnLang
