import Mathlib
import OwnLang.Proofs.Check.Regular

/-!
# The signatures of functions

A function takes what its declaration says: a method takes a pointer to its struct in front of its
parameters, a constant one if the method is constant, and every other function takes its parameters alone
(`Surface.FnDecl.Signs`). A type stands with a function only once it is worked out, and then from the
declaration that the function still has, so at every moment of a session all types of functions are those of
their declarations (`Session.Moment.signed`). With a struct stand only functions that were declared in it
(`Session.Moment.owns`).
-/

namespace OwnLang

/-- What a function takes in front of its parameters. -/
def Surface.FnDecl.receiver (decl : Surface.FnDecl) (owner : Option StructId) (display : String) :
    List Ty :=
  match owner with
  | some id =>
    if decl.kind.isMethod then
      [(Shape.shared (Shape.struct id display).plain (decl.kind == .constMethod)).plain]
    else []
  | none => []

/-- The type is the one that the declaration of a function says. -/
def Surface.FnDecl.Signs (decl : Surface.FnDecl) (owner : Option StructId) (t : Ty) : Prop :=
  ∃ display params returns,
    t.shape = .func (decl.receiver owner display ++ params) decl.variadic returns ∧
      params.length = decl.params.length

/-- A global has a type only once it is complete, and a function has that of its declaration. -/
structure Global.Signed (g : Global) : Prop where
  complete : ∀ t, g.type = some t → g.state = .complete
  signature : ∀ t decl owner, g.type = some t → g.kind = .function decl owner → decl.Signs owner t

theorem Global.signed_of_none {g : Global} (h : g.type = none) : g.Signed := by
  refine ⟨fun t ht => ?_, fun t _ _ ht => ?_⟩
  · rw [h] at ht
    cases ht
  · rw [h] at ht
    cases ht

namespace Context

variable {c d : Context}

/-- All globals are signed. -/
def Signed (c : Context) : Prop := ∀ id, (c.global id).Signed

theorem Signed.of_eq (h : c.Signed) (hglobals : d.globals = c.globals) : d.Signed := fun id => by
  rw [Check.global_of_eq hglobals]
  exact h id

theorem Signed.withGlobal (h : c.Signed) {g : Global} (hg : g.type = none) : (c.withGlobal g).Signed := by
  intro id
  rw [global_withGlobal]
  split
  · exact Global.signed_of_none hg
  · exact h id

theorem Signed.newStruct (h : c.Signed) (decl : Surface.StructDecl) (scope : Scope)
    (symbol display : String) (isInstance : Bool) :
    (c.newStruct decl scope symbol display isInstance).Signed :=
  withMethods_induction (h.of_eq rfl) fun _ hd _ _ => (hd.withGlobal rfl).of_eq rfl

/-- A global was made from the declaration that the roll has at its place. -/
theorem kind_of_roll {id : GlobalId} {kind : GlobalKind} (h : c.roll.globals[id.index]? = some kind) :
    (c.global id).kind = kind := by
  obtain ⟨g, hg, rfl⟩ : ∃ g, c.globals[id.index]? = some g ∧ g.kind = kind := by
    simpa [roll] using h
  unfold Context.global
  rw [hg]
  rfl

theorem kind_of_begins (h : c.roll.Begins d.roll) {id : GlobalId} (hid : id.index < c.globals.size) :
    (d.global id).kind = (c.global id).kind := by
  have hroll : c.roll.globals[id.index]? = some (c.global id).kind := by
    simp [roll, Context.global, hid]
  exact kind_of_roll (Roll.getElem?_of_prefix h.globals hroll)

end Context

namespace Check

variable {ask : Asker} {c d : Context} {r : Roll} {scope : Scope}

/-! ## Signatures -/

theorem fnType_signs {decl : Surface.FnDecl} {owner : Option StructId} {t : Ty}
    (h : fnType ask decl owner scope c = .ok t d) : decl.Signs owner t := by
  unfold fnType at h
  obtain ⟨_, _, hget, hrest⟩ := Run.bind_eq_ok.mp h
  cases hget
  obtain ⟨params, c₁, hparams, hrest⟩ := Run.bind_eq_ok.mp hrest
  obtain ⟨returns, c₂, -, hreturn⟩ := Run.bind_eq_ok.mp hrest
  cases hreturn
  cases owner with
  | none => exact ⟨"", params, returns, rfl, length_mapM hparams⟩
  | some id => exact ⟨(c.struct id).display, params, returns, rfl, length_mapM hparams⟩

theorem globalWork_signs {g : Global} {decl : Surface.FnDecl} {owner : Option StructId} {t : Ty}
    {value : Option Const} (hkind : g.kind = .function decl owner)
    (h : globalWork ask g c = .ok (t, value) d) : decl.Signs owner t := by
  unfold globalWork at h
  rw [hkind] at h
  obtain ⟨u, c₁, hu, hreturn⟩ := Run.bind_eq_ok.mp h
  cases hreturn
  exact fnType_signs hu

/-- What was on a roll still is, and all globals are signed. -/
structure Receiving (r : Roll) (c : Context) : Prop extends Enrolled r c where
  signed : c.Signed

theorem Receiving.of_eq (hc : Receiving r c) (hroll : d.roll = c.roll) (hglobals : d.globals = c.globals) :
    Receiving r d :=
  ⟨hc.toEnrolled.of_eq hroll, hc.signed.of_eq hglobals⟩

theorem Receiving.self (hc : Receiving r c) : Receiving c.roll c := ⟨⟨.refl _, hc.staffed⟩, hc.signed⟩

theorem signed_declareEntity (kind : Surface.ItemKind) (scope : Scope) (names : Option InstanceNames) :
    (declareEntity kind scope names).Preserves Context.Signed :=
  Context.preserves_declareEntity_of (fun _ _ _ _ _ _ hc => hc.withGlobal rfl)
    (fun _ _ _ _ _ _ hc => hc.newStruct _ _ _ _ _) (fun _ _ _ _ _ hc => hc.withGlobal rfl)
    (fun _ _ hc => hc.of_eq rfl) (fun _ _ _ _ _ _ hc => hc.of_eq rfl)

theorem receiving_declareEntity (kind : Surface.ItemKind) (scope : Scope) (names : Option InstanceNames) :
    (declareEntity kind scope names).Preserves (Receiving r) :=
  fun _ _ hd hc => ⟨enrolled_declareEntity _ _ _ hd hc.toEnrolled, signed_declareEntity _ _ _ hd hc.signed⟩

theorem receiving_detached {α : Type} {work : Check α} (h : work.Preserves (Receiving r)) :
    (detached work).Preserves (Receiving r) := by
  intro c d hd hc
  obtain ⟨e, he, rfl⟩ := Run.ends_andFinally hd
  exact (h he (hc.of_eq rfl rfl)).of_eq rfl rfl

theorem receiving_modifyFrame (change : Frame → Frame) : (modifyFrame change).Preserves (Receiving r) :=
  Run.preserves_modify fun _ hc => hc.of_eq rfl rfl

/-- A global whose type is to be worked out has none yet. -/
theorem Receiving.started (hc : Receiving r c) {id : GlobalId} (hid : ¬ Settled (c.global id)) :
    Receiving r (started c id) := by
  refine ⟨hc.toEnrolled.of_eq (Context.roll_modifyGlobal id fun _ => rfl), fun other => ?_⟩
  unfold Check.started
  rw [global_modifyGlobal]
  split
  · rename_i hindex
    obtain rfl : id = other := congrArg GlobalId.mk hindex.1
    refine Global.signed_of_none (Option.eq_none_iff_forall_ne_some.mpr fun t ht => hid (.inr ⟨?_, ?_⟩))
    · exact (hc.signed id).complete t ht
    · exact Option.isSome_iff_exists.mpr ⟨t, ht⟩
  · exact hc.signed other

section

variable (ha : ∀ r q, (ask q).Preserves (Receiving r))

include ha

theorem receiving_stable : Stable ask (Receiving r) where
  answers q _ := ha r q
  detached := receiving_detached
  consume := preserves_consume receiving_modifyFrame
  aliasStarted _ id hc := hc.of_eq (Context.roll_modifyAlias id (fun _ => rfl) fun _ => rfl) rfl
  aliasDone _ id _ hc := hc.of_eq (Context.roll_modifyAlias id (fun _ => rfl) fun _ => rfl) rfl
  structResolved := preserves_resolveStruct (fun q _ => ha r q) receiving_detached
    (fun _ id hc => hc.of_eq (Context.roll_modifyStruct id (fun _ => rfl) fun _ => rfl) rfl)
    fun _ id _ hc => hc.of_eq (Context.roll_modifyStruct id (fun _ => rfl) fun _ => rfl) rfl
  macroDone _ id _ _ hc := hc.of_eq (Context.roll_modifyMacro id fun _ => rfl) rfl
  instantiate := preserves_instance (fun _ _ _ _ _ _ _ => receiving_declareEntity _ _ _)
    (fun q _ => ha r q) receiving_detached (fun _ _ _ hc => hc.of_eq rfl rfl) fun _ _ _ hc => hc.of_eq rfl rfl

/-- The type that is worked out is that of the declaration, which has stayed as it was. -/
theorem receiving_resolveGlobal (id : GlobalId) (usedAt : Span) :
    (resolveGlobal ask id usedAt).Preserves (Receiving r) := by
  intro c d hd hc
  have hwork (r : Roll) : (detached (globalWork ask (c.global id))).Preserves (Receiving r) :=
    receiving_detached (preserves_globalWork (receiving_stable ha).following _)
  obtain rfl | ⟨hid, hend | ⟨t, value, c₁, hdone, rfl⟩⟩ := ends_resolveGlobal hd
  · exact hc
  · exact hwork r hend (hc.started hid)
  · have hc₁ := hwork r (Run.ends_of_ok hdone) (hc.started hid)
    have hbegins := (hwork _ (Run.ends_of_ok hdone) (hc.started hid).self).begins
    obtain ⟨c₂, hresolved, -⟩ := Run.andFinally_eq_ok.mp hdone
    have hlt : id.index < (Check.started c id).globals.size := by
      simpa [Check.started, Context.modifyGlobal] using globalWork_lt hresolved
    have hkind : (c₁.global id).kind = (c.global id).kind := by
      rw [Context.kind_of_begins hbegins hlt]
      unfold Check.started
      rw [global_modifyGlobal]
      split <;> rfl
    refine ⟨hc₁.toEnrolled.of_eq (Context.roll_modifyGlobal id fun _ => rfl), fun other => ?_⟩
    unfold completed
    rw [global_modifyGlobal]
    split
    · rename_i hindex
      obtain rfl : id = other := congrArg GlobalId.mk hindex.1
      refine ⟨fun _ _ => rfl, fun u decl owner hu hfunction => ?_⟩
      cases hu
      exact globalWork_signs (hkind.symm.trans hfunction) hresolved
    · exact hc₁.signed other

theorem receiving_lasting : Lasting ask (Receiving r) where
  toStable := receiving_stable ha
  everyAnswer := ha r
  agrees _ _ h hc := hc.of_eq
    (by simp only [Context.roll, h.globals, h.structs, h.aliases, h.macros]) h.globals
  bodyOpened _ _ _ hc := hc.of_eq rfl rfl
  bodyClosed _ hc := hc.of_eq rfl rfl
  param _ _ := preserves_declareLocal receiving_modifyFrame _ _ _ _
  receiver _ _ := preserves_declareLocal receiving_modifyFrame _ _ _ _
  declared := preserves_declStmt receiving_modifyFrame (receiving_stable ha)
  packages _ _ hc := hc.of_eq rfl rfl
  entityDeclared := receiving_declareEntity
  templateDeclared _ := preserves_declareTemplate (fun _ _ hc => hc.of_eq rfl rfl)
    fun _ _ _ hc => hc.of_eq rfl rfl
  bodyTaken _ _ _ _ hc := hc.of_eq rfl rfl
  bodyAccepted _ _ _ _ _ _ hd := hd.of_eq rfl rfl

end

theorem receiving_answerCut {cut : Cut} (n : Nat) (q : Query) :
    (answerCut cut n q).Preserves (Receiving r) := by
  induction n generalizing q r with
  | zero => exact Run.preserves_stop _
  | succ n ih =>
    have ha (r q) : (answerCut cut n q).Preserves (Receiving r) := ih q
    exact preserves_cutAt ((receiving_lasting ha).toInvariant.step (receiving_resolveGlobal ha) q)

end Check

namespace Session

variable {c : Context}

/-- At every moment of a session the functions have the types of their declarations. -/
theorem Moment.signed (hc : Moment c) : c.Signed := by
  obtain ⟨options, hstart⟩ := hc
  have hempty : Check.Receiving {} ({ options } : Context) :=
    ⟨⟨.refl _, fun _ _ _ hfound => by cases hfound⟩, fun _ => Global.signed_of_none rfl⟩
  exact (hstart.keeps (fun _ => Check.receiving_lasting fun _ q => Check.receiving_answerCut _ q) hempty).signed

/-- A function that stands with a struct was declared in it. -/
theorem Moment.owns (hc : Moment c) {id : StructId} {name : String} {m : GlobalId}
    (h : (c.struct id).member? name = some m) : ∃ decl, (c.global m).kind = .function decl (some id) := by
  have hid : id.index < c.structs.size := by
    by_contra hout
    rw [Check.struct_of_size_le (Nat.le_of_not_lt hout)] at h
    cases h
  have hmember : m ∈ (c.struct id).members.map (·.2) := by
    obtain ⟨before, after, hmembers, -⟩ := List.lookup_eq_some_iff.mp h
    rw [hmembers]
    simp
  have hroll : c.roll.structs[id.index]? = some ((c.struct id).decl, (c.struct id).members.map (·.2)) := by
    simp [Context.roll, Context.struct, hid]
  obtain ⟨hlength, hstaffed⟩ := List.forall₂_iff_get.mp (hc.laid.staffed _ _ _ hroll)
  obtain ⟨i, hi, rfl⟩ := List.getElem_of_mem hmember
  exact ⟨_, Context.kind_of_roll (hstaffed i hi (hlength ▸ hi))⟩

end Session

end OwnLang
