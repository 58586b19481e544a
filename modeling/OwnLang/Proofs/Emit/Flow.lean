import OwnLang.Proofs.Emit.Site

/-!
# Emission from site to site

A part of emission that takes labels starts their blocks, and those of the labels that it is owed (`Site.Flows`). One
that evaluates begins in an open block and ends in an open block, where what was assigned before is still known
(`Site.Evaluates`). Parts are put together from the steps of building.
-/

namespace OwnLang

open Ir (Build Builder Label Layout Line OpenFunction Operand Port Ref Terminator)
open Emit (build build_apply)

/-- A part of emission that only reads the state. -/
class Emit.Reading {α : Type} (e : Emit α) : Prop where
  same : ∀ {s a t}, e s = .ok a t → t = s

namespace Site

variable {α β : Type} {w w' : Site} {e : Emit α} {f : α → Emit β} {owed owed' : List Nat}
  {post post' : α → Site → Prop} {last : β → Site → Prop}

/-- A part of emission leads to a site, and starts the blocks of the labels that it takes and is owed. -/
def Flows (w : Site) (owed : List Nat) (e : Emit α) (post : α → Site → Prop) : Prop :=
  ∀ ⦃a t⦄, e w.state = .ok a t → ∃ w' : Site, w'.state = t ∧ w.Leads w' ∧
    (∀ k, k ∈ owed ∨ (w.labels < k ∧ k ≤ w'.labels) → .numbered k ∈ w'.function.placed) ∧ post a w'

/-- A part of emission that begins in an open block keeps what is known. -/
def Evaluates (w : Site) (e : Emit α) (post : α → Site → Prop) : Prop :=
  w.function.terminated = false → w.Flows [] e fun a w' => w.Keeps w' ∧ post a w'

namespace Flows

theorem mono (h : w.Flows owed e post) (howed : ∀ k ∈ owed', k ∈ owed)
    (hpost : ∀ a w', w.Leads w' → post a w' → post' a w') : w.Flows owed' e post' := by
  intro a t he
  obtain ⟨w', rfl, hleads, hplaced, hw'⟩ := h he
  exact ⟨w', rfl, hleads, fun k hk => hplaced k (hk.imp (howed k) id), hpost a w' hleads hw'⟩

/-- A part that takes no label, and whose end is known. -/
theorem of_eq {a : α} (he : e w.state = .ok a w'.state) (hleads : w.Leads w') (hlabels : w'.labels = w.labels)
    (hpost : post a w') : w.Flows [] e post := by
  intro b t ht
  obtain ⟨rfl, rfl⟩ := Outcome.ok.inj (he.symm.trans ht)
  refine ⟨w', rfl, hleads, fun k hk => ?_, hpost⟩
  rcases hk with hk | hk
  · exact absurd hk List.not_mem_nil
  · omega

theorem bind (he : w.Flows owed e post)
    (hf : ∀ a w', w.Leads w' → post a w' → w'.Flows owed' (f a) last) :
    w.Flows (owed ++ owed') (e >>= f) last := by
  intro b u hrun
  obtain ⟨a, t, hx, hy⟩ := Run.bind_eq_ok.mp hrun
  obtain ⟨w', rfl, hleads, hplaced, hw'⟩ := he hx
  obtain ⟨w'', rfl, hleads', hplaced', hw''⟩ := hf a w' hleads hw' hy
  refine ⟨w'', rfl, hleads.trans hleads', fun k hk => ?_, hw''⟩
  rcases hk with hk | ⟨hlo, hhi⟩
  · rcases List.mem_append.mp hk with hk | hk
    · exact hleads'.placed _ (hplaced k (.inl hk))
    · exact hplaced' k (.inl hk)
  · by_cases hbefore : k ≤ w'.labels
    · exact hleads'.placed _ (hplaced k (.inr ⟨hlo, hbefore⟩))
    · exact hplaced' k (.inr ⟨Nat.lt_of_not_le hbefore, hhi⟩)

/-- A label is taken for what follows, with a port. -/
theorem newLabel {f : Label → Emit β} (port : Port)
    (hf : (w.taking port).Flows (owed ++ [w.labels + 1]) (f (.numbered (w.labels + 1))) last) :
    w.Flows owed (build Build.newLabel >>= f) last := by
  intro b u hrun
  obtain ⟨w', rfl, hleads, hplaced, hw'⟩ := hf hrun
  refine ⟨w', rfl, (leads_taking w port).trans hleads, fun k hk => hplaced k ?_, hw'⟩
  rcases hk with hk | ⟨hlo, hhi⟩
  · exact .inl (List.mem_append_left _ hk)
  · rcases Nat.eq_or_lt_of_le hlo with hfirst | hlater
    · exact .inl (List.mem_append_right _ (List.mem_singleton.mpr hfirst.symm))
    · exact .inr ⟨hlater, hhi⟩

end Flows

/-! ## Ends of blocks -/

/-- Control may jump to a label. -/
structure Admits (w : Site) (target : Label) : Prop where
  within : target.Within w.start w.labels
  free : ¬(w.ports target).merges
  known : ∀ n, (w.ports target).known n → w.function.Assigned w.ports n

/-- Control may jump to a label that has no `phi` if what its port tells is assigned. -/
theorem Has.admits {target : Label} {port : Port} (h : w.Has target port) (hfree : ¬port.merges)
    (hknown : ∀ n, port.known n → w.function.Assigned w.ports n) : w.Admits target where
  within := h.1
  free := h.2 ▸ hfree
  known := h.2 ▸ hknown

/-- Control may jump to a free label from anywhere. -/
theorem Has.admitsPlain {target : Label} (h : w.Has target .plain) : w.Admits target :=
  h.admits id fun _ => False.elim

section

variable {terminator : Terminator} (hrefs : ∀ r ∈ terminator.refs, w.Knows r)
  (htargets : ∀ target ∈ terminator.targets, w.Admits target)

/-- The open block ends, and control may jump where it does. -/
def leaving (hopen : w.function.terminated = false) : Site :=
  w.ending terminator hopen ⟨hrefs, fun target htarget => (htargets target htarget).known⟩
    (fun target htarget => (htargets target htarget).within) fun target htarget _ => (htargets target htarget).free

theorem leads_leaving (hopen : w.function.terminated = false) : w.Leads (leaving hrefs htargets hopen) :=
  (Leads.refl w).ending fun target htarget hsettles => (htargets target htarget).free hsettles.2

include hrefs htargets

theorem flows_terminate (hopen : w.function.terminated = false) :
    w.Flows [] (build (Build.terminate terminator)) fun _ w' => w'.function.terminated = true := by
  have hrun : build (Build.terminate terminator) w.state = .ok ⟨⟩ (leaving hrefs htargets hopen).state := by
    rw [build_apply, Build.terminate_open w.isOpen hopen]
    rfl
  exact .of_eq hrun (leads_leaving hrefs htargets hopen) rfl rfl

end

/-- A block that has no `phi` is started; control comes to it from the open block, if there is one. -/
theorem flows_placeLabel {k : Nat} {port : Port} (hport : w.Has (.numbered k) port) (hfree : ¬port.merges)
    (hdefined : ∀ n, port.known n → n ∈ w.function.defined)
    (hknown : w.function.terminated = false → ∀ n, port.known n → w.function.Assigned w.ports n) :
    w.Flows [k] (build (Build.placeLabel (.numbered k))) fun _ w' =>
      w'.function.terminated = false ∧ w'.function.block = .numbered k ∧
        w'.function.temps = w.function.temps ∧ ∀ n, port.known n → w'.function.Assigned w'.ports n := by
  suffices h : ∃ w₁ : Site, ∃ hclosed : w₁.function.terminated = true,
      ∃ hname : (Label.numbered k).Within w₁.start w₁.labels,
      ∃ hknown₁ : ∀ n, (w₁.ports (.numbered k)).known n → n ∈ w₁.function.defined,
        w.Leads w₁ ∧ w₁.labels = w.labels ∧
        w₁.ports = w.ports ∧ w₁.function.temps = w.function.temps ∧
        build (Build.placeLabel (.numbered k)) w.state =
          .ok ⟨⟩ (w₁.starting k hclosed hname hknown₁).state by
    obtain ⟨w₁, hclosed, hname, hknown₁, hleads, hlabels, hports, htemps, hrun⟩ := h
    have hsettles : ¬w.Settles (.numbered k) := fun h => hfree (hport.2 ▸ h.2)
    intro a t ht
    obtain ⟨-, rfl⟩ := Outcome.ok.inj (hrun.symm.trans ht)
    refine ⟨_, rfl, hleads.starting hsettles, fun j hj => ?_, rfl, rfl, htemps, fun n hn => ?_⟩
    · have hlast : (w₁.starting k hclosed hname hknown₁).labels = w.labels := hlabels
      have hj : j = k := by
        rw [List.mem_singleton, hlast] at hj
        omega
      rw [hj]
      exact mem_placed_starting
    · refine assigned_starting.mpr (.inr ?_)
      rwa [hports, hport.2]
  rw [← hport.2] at hdefined
  cases hopen : w.function.terminated with
  | true =>
    refine ⟨w, hopen, hport.1, hdefined, .refl w, rfl, rfl, rfl, ?_⟩
    rw [build_apply, Build.placeLabel_closed w.isOpen hopen]
    rfl
  | false =>
    have hadmits : ∀ target ∈ (Terminator.br (.numbered k)).targets, w.Admits target := by
      intro target htarget
      rw [List.mem_singleton.mp htarget]
      exact hport.admits hfree (hknown hopen)
    have hleads := leads_leaving (List.forall_mem_nil _) hadmits hopen
    refine ⟨leaving (List.forall_mem_nil _) hadmits hopen, rfl, hport.1,
      fun n hn => hleads.defined n (hdefined n hn), hleads, rfl, rfl, rfl, ?_⟩
    rw [build_apply, Build.placeLabel_open w.isOpen hopen]
    rfl

/-- A jump to a free label. Behind a terminator it is in a block of its own. -/
theorem flows_br {target : Label} (h : w.Has target .plain) :
    w.Flows [] (build (Build.br target)) fun _ w' => w'.function.terminated = true := by
  have hadmits {u : Site} (hu : u.Has target .plain) :
      ∀ name ∈ (Terminator.br target).targets, u.Admits name := by
    intro name hname
    rw [List.mem_singleton.mp hname]
    exact hu.admitsPlain
  cases hopen : w.function.terminated with
  | false => exact flows_terminate (List.forall_mem_nil _) (hadmits h) hopen
  | true =>
    let w₁ := w.taking .plain
    have hnone : ∀ n, (w₁.ports (.numbered (w.labels + 1))).known n → n ∈ w₁.function.defined := by
      rw [(w.has_taking .plain).2]
      exact fun _ => False.elim
    let w₂ := w₁.starting (w.labels + 1) hopen (w.has_taking .plain).1 hnone
    have hleads : w.Leads w₂ := (w.leads_taking .plain).starting fun hsettles =>
      w.not_within (Nat.lt_succ_self _) hsettles.1
    have hopened : Build.opened w.state.builder = w₂.state.builder := by
      have hb : w.state.builder.isTerminated = true := by
        rw [Builder.isTerminated, w.isOpen]
        exact hopen
      rw [Build.opened, if_pos hb, Builder.startBlock, Builder.modifyFunction, w.isOpen]
      rfl
    have hrun : build (Build.br target) w.state = build (Build.terminate (.br target)) w₂.state := by
      rw [build_apply, build_apply, Build.br, Build.terminate_apply, Build.terminate_apply, hopened]
      rfl
    intro a t ht
    obtain ⟨w', rfl, hleads', hplaced, hclosed⟩ := flows_terminate (List.forall_mem_nil _)
      (hadmits (h.extends hleads.toExtends)) rfl (hrun ▸ ht)
    refine ⟨w', rfl, hleads.trans hleads', fun k hk => ?_, hclosed⟩
    rcases hk with hk | ⟨hlo, hhi⟩
    · exact absurd hk List.not_mem_nil
    · rcases Nat.eq_or_lt_of_le hlo with rfl | hlater
      · exact hleads'.placed _ mem_placed_starting
      · exact hplaced k (.inr ⟨hlater, hhi⟩)

/-! ## Evaluating -/

namespace Evaluates

theorem mono (h : w.Evaluates e post) (hpost : ∀ a w', w.Keeps w' → post a w' → post' a w') :
    w.Evaluates e post' :=
  fun hopen => (h hopen).mono (fun _ => id) fun a w' _ hw' => ⟨hw'.1, hpost a w' hw'.1 hw'.2⟩

theorem pure {a : α} (h : post a w) : w.Evaluates (Pure.pure a) post :=
  fun hopen => .of_eq rfl (.refl w) rfl ⟨.refl hopen, h⟩

theorem reject {cause : Cause} {span : Span} : w.Evaluates (Run.reject cause span) post :=
  fun _ _ _ he => by cases he

theorem stop {why : Stop} : w.Evaluates (Run.stop why) post := fun _ _ _ he => by cases he

theorem bind (he : w.Evaluates e post) (hf : ∀ a w', w.Keeps w' → post a w' → w'.Evaluates (f a) last) :
    w.Evaluates (e >>= f) last := by
  intro hopen
  suffices h : w.Flows ([] ++ []) (e >>= f) fun b w'' => w.Keeps w'' ∧ last b w'' from h
  refine (he hopen).bind fun a w' _ hw' => ?_
  exact (hf a w' hw'.1 hw'.2 hw'.1.active).mono (fun _ => id) fun b w'' _ hw'' =>
    ⟨hw'.1.trans hw''.1, hw''.2⟩

/-- A part that only reads the state, and then one that goes on at the same site. -/
theorem reading [hread : Emit.Reading e] (hf : ∀ a, e w.state = .ok a w.state → w.Evaluates (f a) last) :
    w.Evaluates (e >>= f) last := by
  intro hopen b u hrun
  obtain ⟨a, t, hx, hy⟩ := Run.bind_eq_ok.mp hrun
  obtain rfl := hread.same hx
  exact hf a hx hopen hy

/-- A part that only reads the state. -/
theorem look [hread : Emit.Reading e] (h : ∀ a, e w.state = .ok a w.state → post a w) : w.Evaluates e post := by
  intro hopen a t he
  obtain rfl := hread.same he
  exact ⟨w, rfl, .refl w, fun k hk => hk.elim (absurd · List.not_mem_nil) fun hk => by omega,
    .refl hopen, h a he⟩

theorem ite {p : Prop} [Decidable p] {e' : Emit α} (he : w.Evaluates e post) (he' : w.Evaluates e' post) :
    w.Evaluates (if p then e else e') post := by
  split
  · exact he
  · exact he'

theorem forIn {γ : Type} {xs : List γ} {f : γ → PUnit → Emit (ForInStep PUnit)}
    (h : ∀ i ∈ xs, ∀ w', w.Keeps w' → w'.Evaluates (f i ⟨⟩) fun _ _ => True) :
    w.Evaluates (ForIn.forIn xs ⟨⟩ f) fun _ _ => True := by
  induction xs generalizing w with
  | nil => exact .pure trivial
  | cons i rest ih =>
    intro hopen
    rw [List.forIn_cons]
    refine bind (h i List.mem_cons_self w (.refl hopen)) (fun step w' hw' _ => ?_) hopen
    cases step with
    | done _ => exact .pure trivial
    | yield _ => exact ih fun j hj w'' hw'' => h j (List.mem_cons_of_mem _ hj) w'' (hw'.trans hw'')

theorem mapM {γ : Type} {xs : List γ} {f : γ → Emit β}
    (hlast : ∀ {b w' w''}, last b w' → w'.Keeps w'' → last b w'')
    (h : ∀ i ∈ xs, ∀ w', w.Keeps w' → w'.Evaluates (f i) last) :
    w.Evaluates (xs.mapM f) fun bs w' => ∀ b ∈ bs, last b w' := by
  induction xs generalizing w with
  | nil => exact .pure (List.forall_mem_nil _)
  | cons i rest ih =>
    intro hopen
    rw [List.mapM_cons]
    refine bind (h i List.mem_cons_self w (.refl hopen)) (fun b w' hw' hb => ?_) hopen
    refine bind (ih fun j hj w'' hw'' => h j (List.mem_cons_of_mem _ hj) w'' (hw'.trans hw'')) ?_
    exact fun bs w'' hw'' hbs => .pure (List.forall_mem_cons.mpr ⟨hlast hb hw'', hbs⟩)

end Evaluates

/-- A part that only reads the state, and then one that goes on at the same site. -/
theorem Flows.reading [hread : Emit.Reading e] (hf : ∀ a, e w.state = .ok a w.state → w.Flows owed (f a) last) :
    w.Flows owed (e >>= f) last := by
  intro b u hrun
  obtain ⟨a, t, hx, hy⟩ := Run.bind_eq_ok.mp hrun
  obtain rfl := hread.same hx
  exact hf a hx hy

/-- Control goes on behind a part that evaluates. -/
theorem Evaluates.flows (he : w.Evaluates e post) (hopen : w.function.terminated = false) :
    w.Flows [] e fun _ w' => w'.function.terminated = false :=
  (he hopen).mono (fun _ => id) fun _ _ _ hw' => hw'.1.active

/-- A part that is owed nothing, and then one that is owed labels. -/
theorem Flows.andThen (he : w.Flows [] e post) (hf : ∀ a w', w.Leads w' → post a w' → w'.Flows owed (f a) last) :
    w.Flows owed (e >>= f) last := he.bind hf

/-- A part that evaluates in an open block, and then one that is owed labels. -/
theorem Flows.evaluating (he : w.Evaluates e post) (hopen : w.function.terminated = false)
    (hf : ∀ a w', w.Keeps w' → post a w' → w'.Flows owed (f a) last) : w.Flows owed (e >>= f) last :=
  (he hopen).andThen fun a w' _ hw' => hf a w' hw'.1 hw'.2

/-- A label that is owed is placed ahead of what follows. -/
theorem Flows.place {k : Nat} {port : Port} {f : Unit → Emit β} (hport : w.Has (.numbered k) port)
    (hfree : ¬port.merges) (hdefined : ∀ n, port.known n → n ∈ w.function.defined)
    (hknown : w.function.terminated = false → ∀ n, port.known n → w.function.Assigned w.ports n)
    (hf : ∀ w', w.Leads w' → w'.function.terminated = false → w'.function.temps = w.function.temps →
      (∀ n, port.known n → w'.function.Assigned w'.ports n) → w'.function.block = .numbered k →
      w'.Flows owed (f ⟨⟩) last) :
    w.Flows (k :: owed) (build (Build.placeLabel (.numbered k)) >>= f) last :=
  Flows.bind (flows_placeLabel hport hfree hdefined hknown) fun _ w' hleads ⟨hopen, hblock, htemps, hassigned⟩ =>
    hf w' hleads hopen htemps hassigned hblock

/-- The open block ends ahead of what follows. -/
theorem Flows.ending {terminator : Terminator} {f : Unit → Emit β} (hopen : w.function.terminated = false)
    (hrefs : ∀ r ∈ terminator.refs, w.Knows r) (htargets : ∀ target ∈ terminator.targets, w.Admits target)
    (hf : ∀ w', w.Leads w' → w'.function.terminated = true → w'.Flows owed (f ⟨⟩) last) :
    w.Flows owed (build (Build.terminate terminator) >>= f) last :=
  Flows.bind (flows_terminate hrefs htargets hopen) fun _ w' hleads hclosed => hf w' hleads hclosed

/-! ## Instructions -/

/-- An instruction with a result, which is the next temporary. -/
theorem evaluates_assign (type : Ir.Ty) {instr : Ir.Instr} (hphi : instr.incoming? = none)
    (hrefs : ∀ r ∈ instr.refs, w.Knows r) :
    w.Evaluates (build (Build.result type instr)) fun a w' =>
      a = ⟨type, .temp (w.function.temps + 1)⟩ ∧ w'.Knows a.ref := by
  intro hopen
  let line := Line.result (w.function.temps + 1) instr
  have hmerges : ∀ incoming, line.incoming? = some incoming →
      (w.function.plan w.ports).Merges w.function.layout w.function.block incoming :=
    fun incoming h => absurd (hphi.symm.trans h) nofun
  have hrun : build (Build.result type instr) w.state = .ok ⟨type, .temp (w.function.temps + 1)⟩
      (w.adding line (w.function.temps + 1) hopen rfl ⟨hrefs, List.forall_mem_nil _⟩ hmerges).state := by
    rw [build_apply, Build.result_open w.isOpen hopen]
    rfl
  exact .of_eq hrun keeps_adding.toLeads rfl ⟨keeps_adding, rfl, assigned_adding (.inr rfl)⟩

theorem evaluates_result (type : Ir.Ty) {instr : Ir.Instr} (hphi : instr.incoming? = none)
    (hrefs : ∀ r ∈ instr.refs, w.Knows r) :
    w.Evaluates (build (Build.result type instr)) fun a w' => w'.Knows a.ref :=
  (evaluates_assign type hphi hrefs).mono fun _ _ _ h => h.2

theorem evaluates_effect {instr : Ir.Instr} (hphi : instr.incoming? = none)
    (hrefs : ∀ r ∈ instr.refs, w.Knows r) :
    w.Evaluates (build (Build.effect instr)) fun _ _ => True := by
  intro hopen
  have hmerges : ∀ incoming, (Line.effect instr).incoming? = some incoming →
      (w.function.plan w.ports).Merges w.function.layout w.function.block incoming :=
    fun incoming h => absurd (hphi.symm.trans h) nofun
  have hrun : build (Build.effect instr) w.state = .ok ⟨⟩
      (w.adding (.effect instr) w.function.temps hopen rfl ⟨hrefs, List.forall_mem_nil _⟩ hmerges).state := by
    rw [build_apply, Build.effect, Build.push_open w.isOpen hopen]
    rfl
  exact .of_eq hrun keeps_adding.toLeads rfl ⟨keeps_adding, trivial⟩

theorem evaluates_load (type : Ir.Ty) {address : Operand} (h : w.Knows address.ref) :
    w.Evaluates (build (Build.load type address)) fun a w' => w'.Knows a.ref :=
  evaluates_result type rfl (List.forall_mem_singleton.mpr h)

theorem evaluates_store {value address : Operand} (hvalue : w.Knows value.ref) (haddress : w.Knows address.ref) :
    w.Evaluates (build (Build.store value address)) fun _ _ => True :=
  evaluates_effect rfl (List.forall_mem_cons.mpr ⟨hvalue, List.forall_mem_singleton.mpr haddress⟩)

theorem evaluates_call (returns : Ir.Ty) {callee : Ref} {args : List Operand} (signature : Option Ir.Ty)
    (hcallee : w.Knows callee) (hargs : ∀ a ∈ args, w.Knows a.ref) :
    w.Evaluates (build (Build.call returns callee args signature)) fun a w' => w'.Knows a.ref := by
  have hrefs : ∀ r ∈ (Ir.Instr.call (signature.getD returns) callee args).refs, w.Knows r :=
    List.forall_mem_cons.mpr ⟨hcallee, List.forall_mem_map.mpr hargs⟩
  by_cases hvoid : returns.isVoid
  · have hcall : build (Build.call returns callee args signature) =
        build (Build.effect (.call (signature.getD returns) callee args)) >>= fun _ => Pure.pure .void := by
      rw [Build.call, if_pos hvoid]
      rfl
    rw [hcall]
    exact (evaluates_effect rfl hrefs).bind fun _ _ _ _ => .pure trivial
  · rw [Build.call, if_neg hvoid]
    exact evaluates_result returns rfl hrefs

/-- The same function in another state of emission. -/
def restating (w : Site) (s : Emitter) (hfunction : s.builder.function = w.state.builder.function)
    (hlabels : s.builder.labels = w.labels) (hslots : ∀ a ∈ s.slots, w.IsSlot a.1)
    (hloops : ∀ x ∈ s.loops, x.2.continueTo.Free w.start w.labels w.ports ∧
      x.2.breakTo.Free w.start w.labels w.ports) : Site where
  state := s
  function := w.function
  isOpen := hfunction.trans w.isOpen
  start := w.start
  start_le := w.start_le.trans_eq hlabels.symm
  ports := w.ports
  planned := hlabels ▸ w.planned
  slots := hslots
  loops := hlabels ▸ hloops

section

variable {s : Emitter} {hfunction : s.builder.function = w.state.builder.function}
  {hlabels : s.builder.labels = w.labels}
  {hslots : ∀ a ∈ s.slots, w.IsSlot a.1} {hloops : ∀ x ∈ s.loops, x.2.continueTo.Free w.start w.labels w.ports ∧
    x.2.breakTo.Free w.start w.labels w.ports}

theorem leads_restating : w.Leads (w.restating s hfunction hlabels hslots hloops) where
  start := rfl
  params := rfl
  slots _ := id
  defined _ := id
  labels := hlabels.ge
  ports _ _ := rfl
  closed _ := id
  placed _ := id
  jumps _ := id
  sparesPlaced _ := .inl
  sparesJumps _ := .inl

theorem keeps_restating (hopen : w.function.terminated = false) :
    w.Keeps (w.restating s hfunction hlabels hslots hloops) :=
  ⟨leads_restating, hopen, fun _ => id, .inl rfl⟩

end

theorem evaluates_string (text : String) :
    w.Evaluates (build (Build.string text)) fun a w' => w'.Knows a.ref := by
  intro hopen
  have hlabels : (Build.string text w.state.builder).2.labels = w.labels := by
    rw [Build.string_apply]
    cases w.state.builder.strings.findIdx? (· == text) <;> rfl
  have hfunction : (Build.string text w.state.builder).2.function = w.state.builder.function := by
    rw [Build.string_apply]
    cases w.state.builder.strings.findIdx? (· == text) <;> rfl
  have hresult : w.Knows (Build.string text w.state.builder).1.ref := by
    rw [Build.string_apply]
    cases w.state.builder.strings.findIdx? (· == text) <;> exact trivial
  let w' := w.restating { w.state with builder := (Build.string text w.state.builder).2 } hfunction hlabels
    w.slots w.loops
  have hrun : build (Build.string text) w.state = .ok (Build.string text w.state.builder).1 w'.state :=
    build_apply _ _
  exact .of_eq hrun (keeps_restating hopen).toLeads hlabels ⟨keeps_restating hopen, hresult⟩

/-- A slot is reserved, whose address is known from then on. -/
theorem evaluates_newSlot (type : Ir.Ty) : w.Evaluates (build (Build.slot type)) fun a w' => w'.IsSlot a := by
  intro hopen
  let n := w.function.temps + 1
  let g : OpenFunction := { w.function with temps := n, slots := w.function.slots.push (n, type) }
  have htemps : g.slotTemps = w.function.slotTemps ++ [n] := by
    show (w.function.slots.push (n, type)).toList.map (·.1) = _
    rw [Array.toList_push, List.map_append]
    rfl
  have hslots : ∀ m ∈ w.function.slotTemps, m ∈ g.slotTemps := fun m hm => by
    rw [htemps]
    exact List.mem_append_left _ hm
  let w' := w.changing g (w.planned.slot n type n) hslots
  have hrun : build (Build.slot type) w.state = .ok ⟨.ptr, .temp n⟩ w'.state := by
    rw [build_apply, Build.slot_apply type w.isOpen]
    rfl
  have hkeeps : w.Keeps w' :=
    { start := rfl, params := rfl, slots := hslots
      defined := fun m hm => OpenFunction.defined_mono hslots (fun _ => id) hm
      labels := Nat.le_refl _, ports := fun _ _ => rfl, closed := fun _ => id, placed := fun _ => id
      jumps := fun _ => id, sparesPlaced := fun _ => .inl, sparesJumps := fun _ => .inl, active := hopen
      assigned := fun m hm => hm.imp (hslots m) id, block := .inl rfl }
  refine .of_eq hrun hkeeps.toLeads rfl ⟨hkeeps, n, ?_, rfl⟩
  show n ∈ g.slotTemps
  rw [htemps]
  exact List.mem_append_right _ (List.mem_singleton_self _)

end Site

end OwnLang
