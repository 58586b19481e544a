import OwnLang.Proofs.Emit.Growth
import OwnLang.Proofs.Ir.Planned

/-!
# Where emission stands in a graph

A `Site` is a state of emission inside of a function that has a plan so far. Emission leads from site to site
(`Site.Leads`): blocks that were complete stay, and what a `phi` merges is neither jumped to nor started again.
A part of emission that takes labels starts their blocks, and those of the labels that it is owed
(`Site.Flows`). One that evaluates begins in an open block and ends in an open block, where what was assigned before
is still known (`Site.Evaluates`).
-/

namespace OwnLang

open Ir (Build Builder Label Layout Line OpenFunction Operand Port Ref Terminator)

/-- A label that control may come to from anywhere in a function. -/
def Ir.Label.Free (lo hi : Nat) (ports : Label → Port) (name : Label) : Prop :=
  name.Within lo hi ∧ ports name = .plain

/-- A state of emission inside of a function that has a plan so far. -/
structure Site where
  state : Emitter
  function : OpenFunction
  isOpen : state.builder.function = some function
  /-- The number of labels that were taken ahead of the function. -/
  start : Nat
  start_le : start ≤ state.builder.labels
  ports : Label → Port
  planned : function.Planned start state.builder.labels ports
  slots : ∀ a ∈ state.slots, ∃ n ∈ function.slotTemps, a.1.ref = .temp n
  loops : ∀ x ∈ state.loops, x.2.continueTo.Free start state.builder.labels ports ∧
    x.2.breakTo.Free start state.builder.labels ports

namespace Site

variable (w w' : Site)

/-- The number of labels that were taken. -/
def labels : Nat := w.state.builder.labels

/-- A label was taken in the function, with a port. -/
def Has (name : Label) (port : Port) : Prop := name.Within w.start w.labels ∧ w.ports name = port

/-- What is named has a value at the site. -/
def Knows (r : Ref) : Prop := r.Available w.function.params.length (w.function.Assigned w.ports)

/-- An operand is the address of a slot. -/
def IsSlot (a : Operand) : Prop := ∃ n ∈ w.function.slotTemps, a.ref = .temp n

/-- What was built stays. -/
structure Extends : Prop where
  start : w'.start = w.start
  params : w'.function.params = w.function.params
  slots : ∀ n ∈ w.function.slotTemps, n ∈ w'.function.slotTemps
  defined : ∀ n ∈ w.function.defined, n ∈ w'.function.defined
  labels : w.labels ≤ w'.labels
  ports : ∀ name, name.Within w.start w.labels → w'.ports name = w.ports name
  closed : ∀ b ∈ w.function.layout.closed, b ∈ w'.function.layout.closed
  placed : ∀ name ∈ w.function.placed, name ∈ w'.function.placed
  jumps : ∀ x ∈ w.function.layout.jumps, x ∈ w'.function.layout.jumps

/-- A label that was taken before, and whose block has a `phi`. -/
def Settles (name : Label) : Prop := name.Within w.start w.labels ∧ (w.ports name).merges

/-- What was built stays, and nothing is added to what a `phi` merges. -/
structure Leads : Prop extends w.Extends w' where
  sparesPlaced : ∀ name ∈ w'.function.placed, name ∈ w.function.placed ∨ ¬w.Settles name
  sparesJumps : ∀ x ∈ w'.function.layout.jumps, x ∈ w.function.layout.jumps ∨ ¬w.Settles x.2

/-- Control goes on, in the same block or a new one, where all that was known is still known. -/
structure Keeps : Prop extends w.Leads w' where
  active : w'.function.terminated = false
  assigned : ∀ n, w.function.Assigned w.ports n → w'.function.Assigned w'.ports n
  block : w'.function.block = w.function.block ∨ ¬w'.function.block.Within w.start w.labels

variable {w w'} {u : Site}

theorem Extends.refl (w : Site) : w.Extends w :=
  ⟨rfl, rfl, fun _ => id, fun _ => id, Nat.le_refl _, fun _ _ => rfl, fun _ => id, fun _ => id, fun _ => id⟩

theorem Extends.within (h : w.Extends w') {name : Label} (hname : name.Within w.start w.labels) :
    name.Within w'.start w'.labels := h.start ▸ hname.mono h.labels

theorem Extends.trans (h : w.Extends w') (h' : w'.Extends u) : w.Extends u where
  start := h'.start.trans h.start
  params := h'.params.trans h.params
  slots n hn := h'.slots n (h.slots n hn)
  defined n hn := h'.defined n (h.defined n hn)
  labels := h.labels.trans h'.labels
  ports name hname := (h'.ports name (h.within hname)).trans (h.ports name hname)
  closed b hb := h'.closed b (h.closed b hb)
  placed name hname := h'.placed name (h.placed name hname)
  jumps x hx := h'.jumps x (h.jumps x hx)

theorem Has.extends {name : Label} {port : Port} (hname : w.Has name port) (h : w.Extends w') :
    w'.Has name port := ⟨h.within hname.1, (h.ports name hname.1).trans hname.2⟩

theorem Settles.extends {name : Label} (hname : w.Settles name) (h : w.Extends w') : w'.Settles name :=
  ⟨h.within hname.1, (h.ports name hname.1).symm ▸ hname.2⟩

theorem Leads.refl (w : Site) : w.Leads w := ⟨.refl w, fun _ => .inl, fun _ => .inl⟩

theorem Leads.trans (h : w.Leads w') (h' : w'.Leads u) : w.Leads u where
  toExtends := h.toExtends.trans h'.toExtends
  sparesPlaced name hname := by
    rcases h'.sparesPlaced name hname with hold | hnew
    · exact h.sparesPlaced name hold
    · exact .inr fun hsettles => hnew (hsettles.extends h.toExtends)
  sparesJumps x hx := by
    rcases h'.sparesJumps x hx with hold | hnew
    · exact h.sparesJumps x hold
    · exact .inr fun hsettles => hnew (hsettles.extends h.toExtends)

theorem Keeps.refl (h : w.function.terminated = false) : w.Keeps w :=
  ⟨.refl w, h, fun _ => id, .inl rfl⟩

theorem Keeps.trans (h : w.Keeps w') (h' : w'.Keeps u) : w.Keeps u where
  toLeads := h.toLeads.trans h'.toLeads
  active := h'.active
  assigned n hn := h'.assigned n (h.assigned n hn)
  block := by
    rcases h'.block with hsame | hnew
    · rw [hsame]
      exact h.block
    · exact .inr fun hold => hnew (h.within hold)

theorem Knows.leads {r : Ref} (hr : w.Knows r) (h : w.Leads w')
    (hassigned : ∀ n, w.function.Assigned w.ports n → w'.function.Assigned w'.ports n) : w'.Knows r := by
  unfold Knows
  rw [h.params]
  exact hr.mono hassigned

theorem Knows.keeps {r : Ref} (hr : w.Knows r) (h : w.Keeps w') : w'.Knows r :=
  hr.leads h.toLeads h.assigned

/-- Addresses of slots are known everywhere. -/
theorem IsSlot.knows {a : Operand} (h : w.IsSlot a) : w.Knows a.ref := by
  obtain ⟨n, hn, href⟩ := h
  rw [href]
  exact .inl hn

/-! ## Steps -/

/-- A label is taken, with a port. -/
def taking (w : Site) (port : Port) : Site where
  state := { w.state with builder := { w.state.builder with labels := w.labels + 1 } }
  function := w.function
  isOpen := w.isOpen
  start := w.start
  start_le := Nat.le_succ_of_le w.start_le
  ports := Function.update w.ports (.numbered (w.labels + 1)) port
  planned := w.planned.widen (Nat.le_succ _) fun name hname => Function.update_of_ne (by
    rintro rfl
    exact Nat.not_succ_le_self _ hname.2) _ _
  slots := w.slots
  loops x hx := by
    have hfree {name : Label} (h : name.Free w.start w.labels w.ports) :
        name.Free w.start (w.labels + 1) (Function.update w.ports (.numbered (w.labels + 1)) port) := by
      refine ⟨h.1.mono (Nat.le_succ _), ?_⟩
      rw [Function.update_of_ne, h.2]
      rintro rfl
      exact Nat.not_succ_le_self _ h.1.2
    exact ⟨hfree (w.loops x hx).1, hfree (w.loops x hx).2⟩

/-- The open function is changed in a way that keeps a plan. -/
def changing (w : Site) (g : OpenFunction) (hplanned : g.Planned w.start w.labels w.ports)
    (hslots : ∀ n ∈ w.function.slotTemps, n ∈ g.slotTemps) : Site where
  state := { w.state with builder := { w.state.builder with function := some g } }
  function := g
  isOpen := rfl
  start := w.start
  start_le := w.start_le
  ports := w.ports
  planned := hplanned
  slots a ha := by
    obtain ⟨n, hn, href⟩ := w.slots a ha
    exact ⟨n, hslots n hn, href⟩
  loops := w.loops

/-- An instruction that fits goes to the end of the open block. -/
def adding (w : Site) (line : Line) (temps : Nat) (hopen : w.function.terminated = false)
    (hplain : line.isPlain = true)
    (hfits : (w.function.plan w.ports).Fits (w.function.Assigned w.ports) line)
    (hmerges : ∀ incoming, line.incoming? = some incoming →
      (w.function.plan w.ports).Merges w.function.layout w.function.block incoming) : Site :=
  w.changing { w.function with temps, body := w.function.body.push line }
    (w.planned.line hopen hplain hfits hmerges temps) fun _ => id

/-- A terminator that fits ends the open block. -/
def ending (w : Site) (terminator : Terminator) (hopen : w.function.terminated = false)
    (hfits : (w.function.plan w.ports).Fits (w.function.Assigned w.ports) (.leave terminator))
    (htargets : ∀ target ∈ terminator.targets, target.Within w.start w.labels)
    (hmerges : ∀ target ∈ terminator.targets, target ∈ w.function.placed → ¬(w.ports target).merges) : Site :=
  w.changing { w.function with body := w.function.body.push (.leave terminator), terminated := true }
    (w.planned.leave hopen hfits htargets hmerges) fun _ => id

/-- A block follows one that has ended. -/
def starting (w : Site) (k : Nat) (hclosed : w.function.terminated = true)
    (hname : (Label.numbered k).Within w.start w.labels)
    (hknown : ∀ n, (w.ports (.numbered k)).known n → n ∈ w.function.defined) : Site :=
  w.changing
    { w.function with
      body := w.function.body.push (.label (.numbered k)), block := .numbered k, terminated := false }
    (w.planned.start hclosed hname hknown) fun _ => id

theorem extends_taking (w : Site) (port : Port) : w.Extends (w.taking port) where
  start := rfl
  params := rfl
  slots _ := id
  defined _ := id
  labels := Nat.le_succ _
  ports name hname := Function.update_of_ne (by
    rintro rfl
    exact Nat.not_succ_le_self _ hname.2) _ _
  closed _ := id
  placed _ := id
  jumps _ := id

theorem leads_taking (w : Site) (port : Port) : w.Leads (w.taking port) :=
  ⟨w.extends_taking port, fun _ => .inl, fun _ => .inl⟩

theorem keeps_taking (w : Site) (port : Port) (hopen : w.function.terminated = false) :
    w.Keeps (w.taking port) where
  toLeads := w.leads_taking port
  active := hopen
  assigned n hn := by
    have hport : (w.taking port).ports w.function.layout.last.name = w.ports w.function.layout.last.name :=
      (w.extends_taking port).ports _ (w.planned.block ▸ w.planned.block_within)
    refine hn.imp id (.imp (fun hknown => ?_) id)
    show ((w.taking port).ports w.function.layout.last.name).known n
    rwa [hport]
  block := .inl rfl

theorem has_taking (w : Site) (port : Port) : (w.taking port).Has (.numbered (w.labels + 1)) port :=
  ⟨⟨Nat.lt_succ_of_le w.start_le, Nat.le_refl _⟩, Function.update_self _ _ _⟩

/-- What was not taken is not within. -/
theorem not_within (w : Site) {k : Nat} (h : w.labels < k) : ¬(Label.numbered k).Within w.start w.labels :=
  fun hwithin => Nat.not_le_of_lt h hwithin.2

section

variable {g : OpenFunction} {hplanned : g.Planned w.start w.labels w.ports}
  {hslots : ∀ n ∈ w.function.slotTemps, n ∈ g.slotTemps} {line : Line}

theorem extends_changing (hparams : g.params = w.function.params)
    (hbody : g.body = w.function.body.push line) : w.Extends (w.changing g hplanned hslots) := by
  have hlayout : g.layout = w.function.layout.add line := by
    rw [OpenFunction.layout, hbody]
    exact Ir.layout_push _ _
  refine ⟨rfl, hparams, hslots, fun n hn => ?_, Nat.le_refl _, fun _ _ => rfl, fun b hb => ?_,
    fun name hname => ?_, fun x hx => ?_⟩
  · refine OpenFunction.defined_mono hslots (fun old hold => ?_) hn
    rw [hbody]
    exact Array.mem_push_of_mem _ hold
  · show b ∈ g.layout.closed
    rw [hlayout]
    exact w.function.layout.mem_closed_add hb line
  · show name ∈ g.layout.names
    rw [hlayout]
    exact w.function.layout.mem_names_add hname line
  · show x ∈ g.layout.jumps
    rw [hlayout]
    exact w.function.layout.mem_jumps_add hx line

end

section

variable {line : Line} {temps : Nat} {hopen : w.function.terminated = false} {hplain : line.isPlain = true}
  {hfits : (w.function.plan w.ports).Fits (w.function.Assigned w.ports) line}
  {hmerges : ∀ incoming, line.incoming? = some incoming →
    (w.function.plan w.ports).Merges w.function.layout w.function.block incoming}

theorem layout_adding : (w.adding line temps hopen hplain hfits hmerges).function.layout =
    w.function.layout.add line := Ir.layout_push _ _

theorem assigned_adding {n : Nat} (h : w.function.Assigned w.ports n ∨ line.temp? = some n) :
    (w.adding line temps hopen hplain hfits hmerges).function.Assigned w.ports n := by
  have hlast : (w.adding line temps hopen hplain hfits hmerges).function.layout.last =
      ⟨w.function.layout.last.name, w.function.layout.last.lines ++ [line]⟩ := by
    rw [layout_adding, Layout.add_line _ (Line.isLabel_plain hplain)]
  unfold OpenFunction.Assigned Ir.Plan.Assigned
  rw [hlast, Ir.Block.temps, List.filterMap_append, List.mem_append]
  rcases h with (hslot | hknown | htemp) | hline
  · exact .inl hslot
  · exact .inr (.inl hknown)
  · exact .inr (.inr (.inl htemp))
  · exact .inr (.inr (.inr (List.mem_filterMap.mpr ⟨line, List.mem_singleton_self _, hline⟩)))

theorem keeps_adding : w.Keeps (w.adding line temps hopen hplain hfits hmerges) where
  toExtends := extends_changing rfl rfl
  sparesPlaced name hname := by
    unfold OpenFunction.placed at hname
    rw [layout_adding, Layout.names_line _ (Line.isLabel_plain hplain)] at hname
    exact .inl hname
  sparesJumps x hx := by
    rw [layout_adding, Layout.jumps_line _ (Line.isLabel_plain hplain), Line.targets_plain hplain] at hx
    exact .inl (by simpa using hx)
  active := hopen
  assigned n hn := assigned_adding (.inl hn)
  block := .inl rfl

end

section

variable {terminator : Terminator} {hopen : w.function.terminated = false}
  {hfits : (w.function.plan w.ports).Fits (w.function.Assigned w.ports) (.leave terminator)}
  {htargets : ∀ target ∈ terminator.targets, target.Within w.start w.labels}
  {hmerges : ∀ target ∈ terminator.targets, target ∈ w.function.placed → ¬(w.ports target).merges}

theorem layout_ending : (w.ending terminator hopen hfits htargets hmerges).function.layout =
    w.function.layout.add (.leave terminator) := Ir.layout_push _ _

theorem placed_ending : (w.ending terminator hopen hfits htargets hmerges).function.placed =
    w.function.placed := by
  unfold OpenFunction.placed
  rw [layout_ending, Layout.names_line _ rfl]

theorem jumps_ending : (w.ending terminator hopen hfits htargets hmerges).function.layout.jumps =
    w.function.layout.jumps ++ terminator.targets.map (w.function.block, ·) := by
  rw [layout_ending, Layout.jumps_line _ rfl, w.planned.block]
  rfl

theorem extends_ending : w.Extends (w.ending terminator hopen hfits htargets hmerges) :=
  extends_changing rfl rfl

/-- Jumps to blocks that were not taken before, or that have no `phi`. -/
theorem Leads.ending (h : u.Leads w) (hfree : ∀ target ∈ terminator.targets, ¬u.Settles target) :
    u.Leads (w.ending terminator hopen hfits htargets hmerges) where
  toExtends := h.toExtends.trans extends_ending
  sparesPlaced name hname := h.sparesPlaced name (placed_ending ▸ hname)
  sparesJumps x hx := by
    rw [jumps_ending] at hx
    rcases List.mem_append.mp hx with hx | hx
    · exact h.sparesJumps x hx
    · obtain ⟨target, htarget, rfl⟩ := List.mem_map.mp hx
      exact .inr (hfree target htarget)

/-- What was assigned in the block that has ended is assigned at its end. -/
theorem assigned_ending {n : Nat} (h : w.function.Assigned w.ports n) :
    (w.ending terminator hopen hfits htargets hmerges).function.Assigned w.ports n := by
  unfold OpenFunction.Assigned
  rw [layout_ending, Layout.add_line _ rfl]
  refine h.imp id (.imp id fun htemp => ?_)
  rw [Ir.Block.temps, List.filterMap_append]
  exact List.mem_append_left _ htemp

end

section

variable {k : Nat} {hclosed : w.function.terminated = true} {hname : (Label.numbered k).Within w.start w.labels}
  {hknown : ∀ n, (w.ports (.numbered k)).known n → n ∈ w.function.defined}

theorem layout_starting : (w.starting k hclosed hname hknown).function.layout =
    w.function.layout.add (.label (.numbered k)) := Ir.layout_push _ _

theorem placed_starting :
    (w.starting k hclosed hname hknown).function.placed = w.function.placed ++ [.numbered k] := by
  unfold OpenFunction.placed
  rw [layout_starting, Layout.names_label]

theorem mem_placed_starting : .numbered k ∈ (w.starting k hclosed hname hknown).function.placed := by
  rw [placed_starting]
  exact List.mem_append_right _ (List.mem_singleton_self _)

theorem jumps_starting : (w.starting k hclosed hname hknown).function.layout.jumps = w.function.layout.jumps := by
  rw [layout_starting, Layout.jumps_label]

theorem extends_starting : w.Extends (w.starting k hclosed hname hknown) := extends_changing rfl rfl

/-- A block that was not taken before, or that has no `phi`. -/
theorem Leads.starting (h : u.Leads w) (hfree : ¬u.Settles (.numbered k)) :
    u.Leads (w.starting k hclosed hname hknown) where
  toExtends := h.toExtends.trans extends_starting
  sparesPlaced other hother := by
    rw [placed_starting] at hother
    rcases List.mem_append.mp hother with hother | hother
    · exact h.sparesPlaced other hother
    · exact .inr (List.mem_singleton.mp hother ▸ hfree)
  sparesJumps x hx := h.sparesJumps x (jumps_starting ▸ hx)

/-- What is known where a block starts: the slots, and what its port tells. -/
theorem assigned_starting {n : Nat} : (w.starting k hclosed hname hknown).function.Assigned w.ports n ↔
    n ∈ w.function.slotTemps ∨ (w.ports (.numbered k)).known n := by
  unfold OpenFunction.Assigned Ir.Plan.Assigned
  rw [layout_starting]
  simp [Layout.add, Ir.Block.temps]
  rfl

end

end Site

end OwnLang
