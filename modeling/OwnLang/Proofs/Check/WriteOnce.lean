import Mathlib
import OwnLang.Inquiry
import OwnLang.Proofs.Check.Idle

/-!
# Resolution is write-once

In a session files are checked, inquiries are made and instances are asked for, in any order, and any
of these requests may fail. A `Session.Halt` is a place that a session comes through: a request, and a
cut that says how far it is followed. Of two places one precedes the other if its request was made
before, or if its cut stops the same request sooner.

Whatever a session comes through, the entities that it had before are the same later, at most
resolved further, and what resolution finds out of an entity is there exactly once the entity is
complete, and stays (`Session.resolution_write_once`).
-/

namespace OwnLang

open Surface (Ident)

namespace Session

open Check (answerUntil)

/-! ## Requests -/

/-- What can be asked for in a session. -/
inductive Request where
  /-- That the files of a program be checked. -/
  | modules (files : List Surface.Module)
  /-- A type, the value of an expression, or what one of them needs. -/
  | query (q : Query) (h : q.isExpr)
  | referent (path : List Ident) (args : List Surface.TypeExpr) (scope : Scope)
  | member (id : StructId) (name : Ident)
  | expansion (path : List Ident) (scope : Scope)
  | instantiate (id : TemplateId) (args : List Ty) (span : Span)
  | package (name : String)

/-- What is done for a request, with the answers to queries given. -/
def Request.run (ask : Asker) : Request → Check Unit
  | .modules files => Check.checkModulesWith ask files
  | .query q _ => do
    let _ ← ask q
    return ()
  | .referent path args scope => do
    let _ ← Check.resolvePath ask path args scope
    return ()
  | .member id name => do
    let _ ← Check.structMember ask id name
    return ()
  | .expansion path scope => do
    let _ ← Check.namedMacro ask path scope
    return ()
  | .instantiate id args span => do
    let _ ← Check.instantiate ask id args span
    return ()
  | .package name => do
    let _ ← Check.packageId name
    return ()

/-- A request leads from one context to another one. -/
def Leads (c d : Context) : Prop := ∃ r : Request, (r.run Check.answer).Ends c d

/-- Any number of requests lead from one context to another one. -/
abbrev Requests : Context → Context → Prop := Relation.ReflTransGen Leads

/-- The contexts between the requests of sessions. -/
def Between (c : Context) : Prop := ∃ options, Requests { options } c

variable {c d e : Context} {cut cut' : Cut}

theorem Request.follows (hcut : cut'.Within cut) (r : Request) :
    (r.run (answerUntil cut)).Follows .session (r.run (answerUntil cut')) := by
  cases r with
  | modules files => exact Check.follows_checkModulesWith hcut files
  | query q hq =>
    exact Check.follows_idle (fun h => (h.answers q hq).bind fun _ => Run.follows_pure ()) hcut
  | referent path args scope =>
    exact Check.follows_idle (fun h => (Check.follows_resolvePath h path args scope).bind fun _ =>
      Run.follows_pure ()) hcut
  | member id name =>
    exact Check.follows_idle (fun h => (Check.follows_structMember h id name).bind fun _ =>
      Run.follows_pure ()) hcut
  | expansion path scope =>
    exact Check.follows_idle (fun h => (Check.follows_namedMacro h path scope).bind fun _ =>
      Run.follows_pure ()) hcut
  | instantiate id args span =>
    exact Check.follows_idle (fun h => (h.instantiate id args span).bind fun _ =>
      Run.follows_pure ()) hcut
  | package name =>
    exact (Check.follows_packageId name).bind fun _ => Run.follows_pure _

theorem answerUntil_none : answerUntil (fun _ _ => none) = Check.answer := Check.answerCut_none _

theorem Leads.comes (h : Leads c d) (hc : c.Idle) : c.Becomes d ∧ d.Idle := by
  obtain ⟨r, hr⟩ := h
  rw [← answerUntil_none] at hr
  obtain ⟨hcd, hidle⟩ := (r.follows (fun _ _ h => h) c hc).moves d hr
  exact ⟨hcd, hidle hc⟩

theorem requests_come (h : Requests c d) (hc : c.Idle) : c.Becomes d ∧ d.Idle := by
  induction h with
  | refl => exact ⟨.refl c, hc⟩
  | tail _ hstep ih =>
    obtain ⟨hcd, hd⟩ := hstep.comes ih.2
    exact ⟨ih.1.trans hcd, hd⟩

theorem idle_start (options : Options) : ({ options } : Context).Idle := by
  refine ⟨⟨⟨?_, ?_, ?_⟩, ?_, ?_⟩, ?_, rfl⟩ <;> simp

theorem Between.idle (hc : Between c) : c.Idle := by
  obtain ⟨options, h⟩ := hc
  exact (requests_come h (idle_start options)).2

/-! ## Halts -/

/-- A place in a session: a request that is made in some context, and how far it is followed. -/
structure Halt where
  before : Context
  request : Request
  cut : Cut

/-- The context that a session has there. -/
def Halt.Has (p : Halt) (c : Context) : Prop := (p.request.run (answerUntil p.cut)).Ends p.before c

/-- A session comes through one place before the other: in the same request, which is cut short sooner
there, or in an earlier one. -/
inductive Halt.Precedes (p q : Halt) : Prop
  | within (hbefore : q.before = p.before) (hrequest : q.request = p.request)
      (hcut : q.cut.Within p.cut)
  | later {c : Context} (hend : (p.request.run Check.answer).Ends p.before c)
      (hafter : Requests c q.before)

variable {p q : Halt}

theorem Halt.Has.comes (h : p.Has c) (hp : p.before.Idle) : p.before.Becomes c ∧ c.Idle := by
  obtain ⟨hcd, hidle⟩ := (p.request.follows (fun _ _ h => h) p.before hp).moves c h
  exact ⟨hcd, hidle hp⟩

theorem Halt.Precedes.becomes (h : p.Precedes q) (hp : p.before.Idle) (hc : p.Has c) (hd : q.Has d) :
    c.Becomes d := by
  cases h with
  | within hbefore hrequest hcut =>
    unfold Halt.Has at hd
    rw [hbefore, hrequest] at hd
    exact (p.request.follows hcut p.before hp).ends hc hd
  | later hend hafter =>
    have hthere := (Leads.comes ⟨p.request, hend⟩ hp).2
    rw [← answerUntil_none] at hend
    have hct := (p.request.follows (fun _ _ _ => rfl) p.before hp).ends hc hend
    obtain ⟨htq, hq⟩ := requests_come hafter hthere
    exact (hct.trans htq).trans (hd.comes hq).1

theorem Halt.Precedes.idle (h : p.Precedes q) (hp : p.before.Idle) : q.before.Idle := by
  cases h with
  | within hbefore _ _ => exact hbefore ▸ hp
  | later hend hafter => exact (requests_come hafter (Leads.comes ⟨p.request, hend⟩ hp).2).2

/-- Of the places that a session comes through, each has the entities of the ones before, at most
resolved further; and what resolution finds out of an entity is there exactly if that is complete. -/
theorem resolution_write_once (hp : Between p.before) (h : p.Precedes q) (hc : p.Has c)
    (hd : q.Has d) : p.before.Becomes c ∧ c.Becomes d ∧ c.Exact ∧ d.Exact := by
  obtain ⟨hbegins, hidle⟩ := hc.comes hp.idle
  exact ⟨hbegins, h.becomes hp.idle hc hd, hidle.exact, (hd.comes (h.idle hp.idle)).2.exact⟩

/-- Stops where the type of a field is asked for. -/
def typesCut : Cut
  | .type .., _ => some default
  | _, _ => none

/-- How far the layout of a box is when the type of its field is asked for, and how far in the end. -/
def boxStates : Option (State × State) :=
  let request := Request.instantiate ⟨0⟩ [Shape.i32.plain] .null
  match Check.checkModules [boxModule] { options := .library } with
  | .ok _ s =>
    match request.run (answerUntil typesCut) s, request.run Check.answer s with
    | .error _ c, .ok _ d => some ((c.struct ⟨0⟩).state, (d.struct ⟨0⟩).state)
    | _, _ => none
  | _ => none

/-- The layout of a box is begun when the type of its field is asked for, and complete in the end. -/
theorem resolution_write_once_box :
    ∃ (p q : Halt) (c d : Context), Between p.before ∧ p.Precedes q ∧ p.Has c ∧ q.Has d ∧
      (c.struct ⟨0⟩).state = .resolving ∧ (d.struct ⟨0⟩).state = .complete ∧
        p.before.Becomes c ∧ c.Becomes d ∧ c.Exact ∧ d.Exact := by
  have hstates : boxStates = some (.resolving, .complete) := by decide +kernel
  unfold boxStates at hstates
  dsimp only at hstates
  split at hstates
  · rename_i s hmodules
    split at hstates
    · rename_i _ c _ d hcut hmade
      obtain ⟨hresolving, hcomplete⟩ : _ ∧ _ := by simpa using hstates
      let p : Halt := ⟨s, .instantiate ⟨0⟩ [Shape.i32.plain] .null, typesCut⟩
      let q : Halt := { p with cut := fun _ _ => none }
      have hp : Between s := ⟨.library, .single ⟨.modules [boxModule], Run.ends_of_ok hmodules⟩⟩
      have hpq : p.Precedes q := .within rfl rfl fun _ _ _ => rfl
      have hc : p.Has c := Run.ends_of_error hcut
      have hd : q.Has d := by
        unfold Halt.Has
        rw [answerUntil_none]
        exact Run.ends_of_ok hmade
      exact ⟨p, q, c, d, hp, hpq, hc, hd, hresolving, hcomplete, resolution_write_once hp hpq hc hd⟩
    · cases hstates
  · cases hstates

/-! ## Inquiries

What the texts of inquiries stand for is found out by requests, one after the other. -/

section

variable {α : Type} {s : Context}

theorem requests_of_run {x : Check α} (r : Request) (h : r.run Check.answer = do let _ ← x; return ()) :
    x.Preserves (Requests s) := by
  intro c d hd hc
  refine hc.tail ⟨r, ?_⟩
  rw [h]
  rcases hd with ⟨a, hd⟩ | ⟨e, hd⟩
  · exact Run.ends_of_ok (Run.bind_eq_ok.mpr ⟨a, d, hd, rfl⟩)
  · exact Run.ends_of_error (Run.bind_eq_error.mpr (.inl hd))

theorem requests_answer (q : Query) (hq : q.isExpr) : (Check.answer q).Preserves (Requests s) :=
  requests_of_run (.query q hq) rfl

theorem preserves_read {P : Context → Prop} (reader : Parse α) (text : String) :
    (Inquiry.read reader text).Preserves P := by
  unfold Inquiry.read
  refine (Run.preserves_ofExcept _).bind fun tokens => ?_
  split
  · exact Run.preserves_stop _
  · split
    · exact Run.preserves_pure _
    · exact Run.preserves_fail _
    · exact Run.preserves_stop _

theorem preserves_readPath {P : Context → Prop} (text : String) :
    (Inquiry.readPath text).Preserves P := by
  refine (preserves_read _ text).bind fun e => ?_
  split
  · exact Run.preserves_pure _
  · exact Run.preserves_reject _ _

theorem requests_typeOf (scope : Scope) (text : String) :
    (Inquiry.typeOf scope text).Preserves (Requests s) :=
  (preserves_read _ text).bind fun _ => requests_answer _ rfl

theorem requests_completeTypeOf (scope : Scope) (text : String) :
    (Inquiry.completeTypeOf scope text).Preserves (Requests s) := by
  refine (preserves_read _ text).bind fun _ => (requests_answer _ rfl).bind fun t =>
    (Check.preserves_requireValueType _ _).bind fun _ => .bind ?_ fun _ => Run.preserves_pure _
  exact Check.preserves_complete requests_answer _ _

theorem requests_valueOf (scope : Scope) (text : String) (expected : Option String) :
    (Inquiry.valueOf scope text expected).Preserves (Requests s) := by
  refine (preserves_read _ text).bind fun e => ?_
  cases expected with
  | none => exact (Run.preserves_pure _).bind fun _ => requests_answer _ rfl
  | some expected =>
    exact ((requests_typeOf scope expected).map _).bind fun _ => requests_answer _ rfl

theorem requests_globalOf (scope : Scope) (text : String) :
    (Inquiry.globalOf scope text).Preserves (Requests s) := by
  refine (preserves_readPath text).bind fun (path, args, span) =>
    (requests_of_run (.referent path args scope) rfl).bind fun referent => ?_
  split
  · exact (requests_answer _ rfl).bind fun _ => Run.preserves_pure _
  · exact Run.preserves_reject _ _

theorem requests_macroOf (scope : Scope) (text : String) :
    (Inquiry.macroOf scope text).Preserves (Requests s) :=
  (preserves_readPath text).bind fun (path, _) => requests_of_run (.expansion path scope) rfl

theorem requests_instanceOf (scope : Scope) (id : TemplateId) (texts : List String) :
    (Inquiry.instanceOf scope id texts).Preserves (Requests s) :=
  (Run.preserves_mapM (requests_typeOf scope) texts).bind fun args => Run.preserves_get.bind fun _ =>
    (requests_of_run (.instantiate id args .null) rfl).bind fun _ => Run.preserves_pure _

theorem requests_packageOf (name : String) : (Inquiry.packageOf name).Preserves (Requests s) :=
  Run.preserves_get.bind fun _ => (requests_of_run (.package name) rfl).bind fun _ =>
    Run.preserves_pure _

theorem requests_memberOf (id : StructId) (name : String) :
    (Inquiry.memberOf id name).Preserves (Requests s) :=
  Run.preserves_get.bind fun _ => (requests_of_run (.member id ⟨name, .null⟩) rfl).bind fun _ =>
    Run.preserves_pure _

end

end Session

end OwnLang
