import OwnLang.Proofs.Ir.Blocks

/-!
# Building functions that have plans

While a function is open it may have a plan for what was built of it so far (`OpenFunction.Planned`). Each step of
building keeps a plan: a line that fits goes to the end of the open block, a block that is closed is followed by
another one, and a fresh label has the port that is chosen for it.
-/

namespace OwnLang.Ir

/-- The entry of a function, or one of the blocks whose numbers are behind `lo` and not behind `hi`. -/
def Label.Within (lo hi : Nat) : Label → Prop
  | .entry => True
  | .numbered number => lo < number ∧ number ≤ hi
  | .verbatim _ => False

theorem Label.Within.mono {lo hi hi' : Nat} {name : Label} (h : name.Within lo hi) (hle : hi ≤ hi') :
    name.Within lo hi' := by
  cases name with
  | entry => trivial
  | numbered k => exact ⟨h.1, h.2.trans hle⟩
  | verbatim text => exact h

/-! ## One more line -/

namespace Layout

variable (l : Layout)

/-- The names of the blocks. -/
def names : List Label := l.blocks.map (·.name)

theorem names_line {line : Line} (h : line.isLabel = false) : (l.add line).names = l.names := by
  rw [add_line l h]
  simp [names, blocks]

theorem names_label (name : Label) : (l.add (.label name)).names = l.names ++ [name] := by
  simp [names, blocks, add]

theorem mem_closed_add {b : Block} (h : b ∈ l.closed) (line : Line) : b ∈ (l.add line).closed := by
  cases line with
  | label name => exact List.mem_append_left _ h
  | _ => exact h

theorem mem_names_add {name : Label} (h : name ∈ l.names) (line : Line) : name ∈ (l.add line).names := by
  cases line with
  | label other =>
    rw [names_label]
    exact List.mem_append_left _ h
  | _ => rwa [names_line l rfl]

theorem mem_jumps_add {x : Label × Label} (h : x ∈ l.jumps) (line : Line) : x ∈ (l.add line).jumps := by
  cases line with
  | label other => rwa [jumps_label]
  | _ =>
    rw [jumps_line l rfl]
    exact List.mem_append_left _ h

end Layout

namespace Plan

variable {p : Plan} {l l' : Layout}

theorem Merges.mono {name : Label} {incoming : List (Ref × Label)} (h : p.Merges l name incoming)
    (hjumps : ∀ source, (source, name) ∈ l'.jumps ↔ (source, name) ∈ l.jumps)
    (hclosed : ∀ b ∈ l.closed, b ∈ l'.closed) : p.Merges l' name incoming where
  port := h.port
  distinct := h.distinct
  sources source := (h.sources source).trans (hjumps source).symm
  values x hx := by
    obtain ⟨b, hb, hsource⟩ := h.values x hx
    exact ⟨b, hclosed b hb, hsource⟩

/-- A line goes to the end of the last block and leaves the jumps to blocks that have a `phi` alone. -/
theorem Describes.line (h : p.Describes l) {line : Line} (hline : line.isLabel = false)
    (hjumps : ∀ source, ∀ b ∈ l.blocks, (p.ports b.name).merges →
      ((source, b.name) ∈ (l.add line).jumps ↔ (source, b.name) ∈ l.jumps))
    (hmerges : ∀ incoming, line.incoming? = some incoming → p.Merges l l.last.name incoming) :
    p.Describes (l.add line) := by
  have hclosed : (l.add line).closed = l.closed := by rw [Layout.add_line l hline]
  have hkept {b : Block} (hb : b ∈ l.blocks) {incoming : List (Ref × Label)}
      (hold : p.Merges l b.name incoming) : p.Merges (l.add line) b.name incoming :=
    hold.mono (fun source => hjumps source b hb hold.port) (by rw [hclosed]; exact fun _ => id)
  have hlast : l.last ∈ l.blocks := List.mem_append_right _ (List.mem_singleton_self _)
  refine ⟨h.entry, by rw [hclosed]; exact h.closed, fun b hb other hother incoming hincoming => ?_⟩
  rw [Layout.add_line l hline] at hb
  rcases List.mem_append.mp hb with hb | hb
  · have hmem : b ∈ l.blocks := List.mem_append_left _ hb
    exact hkept hmem (h.merges b hmem other hother incoming hincoming)
  · rw [List.mem_singleton.mp hb] at hother ⊢
    rcases List.mem_append.mp hother with hother | hother
    · exact hkept hlast (h.merges l.last hlast other hother incoming hincoming)
    · rw [List.mem_singleton.mp hother] at hincoming
      exact hkept hlast (hmerges incoming hincoming)

/-- A block behind a complete one. -/
theorem Describes.label (h : p.Describes l) (hlast : p.Closes l.last) (name : Label) :
    p.Describes (l.add (.label name)) := by
  have hkept {b : Block} {incoming : List (Ref × Label)} (hold : p.Merges l b.name incoming) :
      p.Merges (l.add (.label name)) b.name incoming :=
    hold.mono (fun source => by rw [Layout.jumps_label]) fun _ hb => List.mem_append_left _ hb
  refine ⟨h.entry, fun b hb => ?_, fun b hb line hline incoming hincoming => ?_⟩
  · rcases List.mem_append.mp hb with hb | hb
    · exact h.closed b hb
    · rwa [List.mem_singleton.mp hb]
  · rcases List.mem_append.mp hb with hb | hb
    · exact hkept (h.merges b hb line hline incoming hincoming)
    · rw [List.mem_singleton.mp hb] at hline
      exact absurd hline List.not_mem_nil

end Plan

namespace OpenFunction

variable (f : OpenFunction)

/-- The blocks of an open function. -/
def layout : Layout := Ir.layout f.body.toList

/-- The names of the blocks that were started. -/
def placed : List Label := f.layout.names

/-- The addresses of slots. -/
def slotTemps : List Nat := f.slots.toList.map (·.1)

/-- The temporaries that were assigned anywhere so far. -/
def defined : List Nat := f.slotTemps ++ f.body.toList.filterMap Line.temp?

/-- The plan of an open function that has some ports. -/
def plan (ports : Label → Port) : Plan := ⟨f.params.length, f.slotTemps, ports⟩

/-- A function whose labels have the numbers behind `lo` up to `hi` has a plan so far. -/
structure Planned (lo hi : Nat) (ports : Label → Port) : Prop where
  block : f.layout.last.name = f.block
  /-- The entry is not started again. -/
  entry : .label .entry ∉ f.body
  names : ∀ name ∈ f.placed, name.Within lo hi
  targets : ∀ x ∈ f.layout.jumps, x.2.Within lo hi
  describes : (f.plan ports).Describes f.layout
  fills : f.terminated = false → (f.plan ports).Fills f.layout.last.name f.layout.last.lines
  closes : f.terminated = true → (f.plan ports).Closes f.layout.last
  known : ∀ name ∈ f.placed, ∀ n, (ports name).known n → n ∈ f.defined

/-- A temporary is assigned at the end of what was built so far. -/
def Assigned (ports : Label → Port) (number : Nat) : Prop := (f.plan ports).Assigned f.layout.last number

variable {f} {lo hi : Nat} {ports : Label → Port}

theorem layout_push (line : Line) : layout { f with body := f.body.push line } = f.layout.add line :=
  Ir.layout_push f.body line

/-- Nothing is known of a function yet. -/
theorem planned_empty (hbody : f.body = #[]) (hblock : f.block = .entry) (hopen : f.terminated = false)
    (hentry : ports .entry = .plain) (lo hi : Nat) : f.Planned lo hi ports := by
  have hlayout : f.layout = ⟨[], ⟨.entry, []⟩⟩ := by
    rw [layout, hbody]
    rfl
  refine ⟨?_, ?_, ?_, ?_, ⟨?_, ?_, ?_⟩, ?_, ?_, ?_⟩
  · rw [hlayout, hblock]
  · rw [hbody]
    exact Array.not_mem_empty _
  · rw [placed, hlayout]
    intro name hname
    rw [List.mem_singleton.mp hname]
    trivial
  · rw [hlayout]
    exact fun x hx => absurd hx List.not_mem_nil
  · intro n hn
    have hknown : (ports .entry).known n := hn
    rwa [hentry] at hknown
  · rw [hlayout]
    exact fun b hb => absurd hb List.not_mem_nil
  · rw [hlayout]
    intro b hb line hline
    rw [List.mem_singleton.mp hb] at hline
    exact absurd hline List.not_mem_nil
  · rw [hlayout]
    exact fun _ => .nil
  · rw [hopen]
    exact fun h => absurd h Bool.false_ne_true
  · intro name hname n hn
    rw [placed, hlayout] at hname
    rw [List.mem_singleton.mp hname, hentry] at hn
    exact hn.elim

theorem mem_defined_slots {n : Nat} (h : n ∈ f.slotTemps) : n ∈ f.defined := List.mem_append_left _ h

theorem mem_defined_line {n : Nat} {line : Line} (hline : line ∈ f.body) (htemp : line.temp? = some n) :
    n ∈ f.defined :=
  List.mem_append_right _ (List.mem_filterMap.mpr ⟨line, Array.mem_toList_iff.mpr hline, htemp⟩)

/-- What was assigned stays assigned. -/
theorem defined_mono {g : OpenFunction} (hslots : ∀ n ∈ f.slotTemps, n ∈ g.slotTemps)
    (hbody : ∀ line ∈ f.body, line ∈ g.body) {n : Nat} (hn : n ∈ f.defined) : n ∈ g.defined := by
  rcases List.mem_append.mp hn with hn | hn
  · exact mem_defined_slots (hslots n hn)
  · obtain ⟨line, hline, htemp⟩ := List.mem_filterMap.mp hn
    exact mem_defined_line (hbody line (Array.mem_toList_iff.mp hline)) htemp

namespace Planned

variable (h : f.Planned lo hi ports)

include h

theorem block_placed : f.block ∈ f.placed :=
  List.mem_map.mpr ⟨f.layout.last, List.mem_append_right _ (List.mem_singleton_self _), h.block⟩

theorem block_within : f.block.Within lo hi := h.names _ h.block_placed

theorem name_within {b : Block} (hb : b ∈ f.layout.blocks) : b.name.Within lo hi :=
  h.names _ (List.mem_map_of_mem hb)

/-- What is assigned where the last block has come to was assigned somewhere. -/
theorem assigned_defined {n : Nat} (hn : f.Assigned ports n) : n ∈ f.defined := by
  rcases hn with hslot | hknown | htemp
  · exact mem_defined_slots hslot
  · exact h.known _ (h.block ▸ h.block_placed) n hknown
  · obtain ⟨line, hline, htemp⟩ := List.mem_filterMap.mp htemp
    have hmem : line ∈ f.body.toList :=
      mem_of_layout (List.mem_append_right _ (List.mem_singleton_self f.layout.last)) hline
    exact mem_defined_line (Array.mem_toList_iff.mp hmem) htemp

/-- What is known of the blocks is still defined behind one more line. -/
theorem known_push {line : Line} (hlabel : line.isLabel = false) (temps : Nat) (terminated : Bool) :
    let g : OpenFunction := { f with temps, body := f.body.push line, terminated }
    ∀ name ∈ g.placed, ∀ n, (ports name).known n → n ∈ g.defined := by
  intro g name hname n hn
  have hplaced : g.placed = f.placed := by
    show (Ir.layout (f.body.push line).toList).names = _
    rw [Ir.layout_push, Layout.names_line _ hlabel]
    rfl
  exact defined_mono (f := f) (g := g) (fun _ => id) (fun _ => Array.mem_push_of_mem _)
    (h.known name (hplaced ▸ hname) n hn)

theorem entry_push {line : Line} (hline : line ≠ .label .entry) : .label .entry ∉ f.body.push line := by
  rw [Array.mem_push]
  rintro (hold | hlast)
  · exact h.entry hold
  · exact hline hlast.symm

/-- The same blocks with a plan that has grown. -/
theorem grows {g : OpenFunction} {hi' : Nat} {ports' : Label → Port} (hbody : g.body = f.body)
    (hblock : g.block = f.block) (hterminated : g.terminated = f.terminated) (hhi : hi ≤ hi')
    (hp : (f.plan ports).Grows (g.plan ports') (Label.Within lo hi)) : g.Planned lo hi' ports' := by
  have hlayout : g.layout = f.layout := by rw [layout, layout, hbody]
  have hlast : f.layout.last ∈ f.layout.blocks := List.mem_append_right _ (List.mem_singleton_self _)
  refine ⟨?_, hbody ▸ h.entry, ?_, ?_, ?_, ?_, ?_, ?_⟩
  · rw [hlayout, hblock]
    exact h.block
  · rw [placed, hlayout]
    exact fun name hname => (h.names name hname).mono hhi
  · rw [hlayout]
    exact fun x hx => (h.targets x hx).mono hhi
  · rw [hlayout]
    exact h.describes.grows hp trivial (fun _ => h.name_within) h.targets
  · rw [hlayout, hterminated]
    exact fun hopen => (h.fills hopen).grows hp (h.name_within hlast)
  · rw [hlayout, hterminated]
    exact fun hclosed => (h.closes hclosed).grows hp (h.name_within hlast) fun target htarget =>
      h.targets _ (Layout.mem_jumps.mpr ⟨_, hlast, rfl, htarget⟩)
  · intro name hname n hn
    rw [placed, hlayout] at hname
    have hport : ports' name = ports name := hp.ports name (h.names name hname)
    exact defined_mono hp.slots (fun _ => by rw [hbody]; exact id) (h.known name hname n (hport ▸ hn))

/-- More labels are taken, with ports of their own. -/
theorem widen {hi' : Nat} {ports' : Label → Port} (hhi : hi ≤ hi')
    (hports : ∀ name, name.Within lo hi → ports' name = ports name) : f.Planned lo hi' ports' :=
  h.grows rfl rfl rfl hhi ⟨rfl, fun _ hn => hn, hports⟩

/-- A slot is reserved. -/
theorem slot (number : Nat) (type : Ty) (temps : Nat) :
    Planned { f with temps, slots := f.slots.push (number, type) } lo hi ports := by
  refine h.grows rfl rfl rfl (Nat.le_refl _) ⟨rfl, fun n hn => ?_, fun _ _ => rfl⟩
  show n ∈ (f.slots.push (number, type)).toList.map (·.1)
  rw [Array.toList_push, List.map_append]
  exact List.mem_append_left _ hn

/-- A line that fits goes to the end of an open block. -/
theorem line {line : Line} (hopen : f.terminated = false) (hplain : line.isPlain = true)
    (hfits : (f.plan ports).Fits (f.Assigned ports) line)
    (hmerges : ∀ incoming, line.incoming? = some incoming →
      (f.plan ports).Merges f.layout f.block incoming) (temps : Nat) :
    Planned { f with temps, body := f.body.push line } lo hi ports := by
  have hlayout : layout { f with temps, body := f.body.push line } = f.layout.add line := layout_push line
  have hlabel := Line.isLabel_plain hplain
  have hjumps : (f.layout.add line).jumps = f.layout.jumps := by
    rw [Layout.jumps_line _ hlabel, Line.targets_plain hplain]
    exact List.append_nil _
  rw [← h.block] at hmerges
  refine ⟨?_, h.entry_push (fun heq => by rw [heq] at hlabel; cases hlabel), ?_, ?_, ?_, ?_, ?_,
    h.known_push hlabel temps f.terminated⟩
  · rw [hlayout, Layout.add_line _ hlabel]
    exact h.block
  · rw [placed, hlayout, Layout.names_line _ hlabel]
    exact h.names
  · rw [hlayout, hjumps]
    exact h.targets
  · rw [hlayout]
    exact h.describes.line hlabel (fun _ _ _ _ => by rw [hjumps]) hmerges
  · rw [hlayout, Layout.add_line _ hlabel]
    exact fun _ => .snoc (h.fills hopen) hplain hfits
  · exact fun hclosed => absurd (hopen.symm.trans hclosed) Bool.false_ne_true

/-- A terminator that fits ends an open block, if no `phi` knows of fewer jumps. -/
theorem leave {terminator : Terminator} (hopen : f.terminated = false)
    (hfits : (f.plan ports).Fits (f.Assigned ports) (.leave terminator))
    (htargets : ∀ target ∈ terminator.targets, target.Within lo hi)
    (hmerges : ∀ target ∈ terminator.targets, target ∈ f.placed → ¬(ports target).merges) :
    Planned { f with body := f.body.push (.leave terminator), terminated := true } lo hi ports := by
  have hlayout : layout { f with body := f.body.push (.leave terminator), terminated := true } =
      f.layout.add (.leave terminator) := layout_push _
  have hlabel : (Line.leave terminator).isLabel = false := rfl
  refine ⟨?_, h.entry_push nofun, ?_, ?_, ?_, ?_, ?_, h.known_push hlabel f.temps true⟩
  · rw [hlayout]
    exact h.block
  · rw [placed, hlayout, Layout.names_line _ hlabel]
    exact h.names
  · rw [hlayout, Layout.jumps_line _ hlabel]
    intro x hx
    rcases List.mem_append.mp hx with hx | hx
    · exact h.targets x hx
    · obtain ⟨target, htarget, rfl⟩ := List.mem_map.mp hx
      exact htargets target htarget
  · rw [hlayout]
    refine h.describes.line hlabel (fun source b hb hport => ?_) nofun
    rw [Layout.jumps_line _ hlabel, List.mem_append]
    refine or_iff_left fun hnew => ?_
    obtain ⟨target, htarget, heq⟩ := List.mem_map.mp hnew
    obtain ⟨-, rfl⟩ := Prod.mk.inj heq
    exact hmerges _ htarget (List.mem_map_of_mem hb) hport
  · exact fun hopen' => absurd hopen'.symm Bool.false_ne_true
  · rw [hlayout]
    exact fun _ => ⟨_, terminator, rfl, h.fills hopen, hfits⟩

/-- A block behind one that is closed. -/
theorem start {k : Nat} (hclosed : f.terminated = true) (hname : (Label.numbered k).Within lo hi)
    (hknown : ∀ n, (ports (.numbered k)).known n → n ∈ f.defined) :
    Planned { f with body := f.body.push (.label (.numbered k)), block := .numbered k, terminated := false } lo hi
      ports := by
  have hlayout : layout
      { f with body := f.body.push (.label (.numbered k)), block := .numbered k, terminated := false } =
      f.layout.add (.label (.numbered k)) := layout_push _
  refine ⟨?_, h.entry_push nofun, ?_, ?_, ?_, ?_, ?_, ?_⟩
  · rw [hlayout]
    rfl
  · rw [placed, hlayout, Layout.names_label]
    intro other hother
    rcases List.mem_append.mp hother with hother | hother
    · exact h.names other hother
    · rwa [List.mem_singleton.mp hother]
  · rw [hlayout, Layout.jumps_label]
    exact h.targets
  · rw [hlayout]
    exact h.describes.label (h.closes hclosed) (.numbered k)
  · rw [hlayout]
    exact fun _ => .nil
  · exact fun hclosed' => absurd hclosed' Bool.false_ne_true
  · intro name hstarted n hn
    refine defined_mono (f := f) (g := { f with body := f.body.push (.label (.numbered k)) }) (fun _ => id)
      (fun _ => Array.mem_push_of_mem _) ?_
    rw [placed, hlayout, Layout.names_label] at hstarted
    rcases List.mem_append.mp hstarted with hold | hnew
    · exact h.known name hold n hn
    · rw [List.mem_singleton.mp hnew] at hn
      exact hknown n hn

end Planned

end OpenFunction

/-! ## Finished functions -/

/-- The label of a line that starts a block. -/
def Line.label? : Line → Option Label
  | .label name => some name
  | _ => none

/-- The blocks are the entry and those that lines start. -/
theorem names_layout (lines : List Line) : (layout lines).names = .entry :: lines.filterMap Line.label? := by
  suffices h : ∀ l : Layout, (lines.foldl Layout.add l).names = l.names ++ lines.filterMap Line.label? from h _
  induction lines with
  | nil => exact fun l => (List.append_nil _).symm
  | cons line rest ih =>
    intro l
    rw [List.foldl_cons, ih]
    cases line with
    | label name =>
      rw [Layout.names_label, List.append_assoc]
      rfl
    | _ => rw [Layout.names_line l rfl, List.filterMap_cons_none rfl]

theorem count_labels (lines : List Line) (k : Nat) :
    (lines.filterMap Line.label?).count (.numbered k) = lines.countP (·.marks k) := by
  rw [List.count_eq_countP, List.countP_filterMap]
  refine List.countP_congr fun line _ => ?_
  cases line <;> simp [Line.label?, Line.marks]

theorem count_temps (lines : List Line) (n : Nat) :
    (lines.filterMap Line.temp?).count n = lines.countP (·.assigns n) := by
  rw [List.count_eq_countP, List.countP_filterMap]
  refine List.countP_congr fun line _ => ?_
  cases line <;> simp [Line.temp?, Line.assigns]

theorem Function.count_numbers (f : Function) (k : Nat) : f.numbers.count k = f.body.toList.countP (·.marks k) := by
  unfold numbers
  rw [List.count_eq_countP, List.countP_filterMap]
  refine List.countP_congr fun line _ => ?_
  cases line with
  | label name => cases name <;> simp [Line.marks]
  | _ => simp [Line.marks]

namespace OpenFunction

variable {f : OpenFunction} {lo hi : Nat} {ports : Label → Port}

theorem names_code (f : OpenFunction) : (Ir.layout f.code.toList).names = f.placed := by
  unfold code
  split
  · rfl
  · rw [Ir.layout_push, Layout.names_line _ rfl]
    rfl

/-- The end of an open block is one that control does not reach. -/
theorem Planned.finished (h : f.Planned lo hi ports) :
    Planned { f with body := f.code, terminated := true } lo hi ports := by
  unfold code
  cases hclosed : f.terminated with
  | true =>
    have hsame : { f with body := f.body, terminated := true } = f := by rw [← hclosed]
    simpa only [if_true, hsame] using h
  | false =>
    simpa only [Bool.false_eq_true, if_false] using h.leave hclosed
      ⟨List.forall_mem_nil _, List.forall_mem_nil _⟩ (List.forall_mem_nil _) (List.forall_mem_nil _)

/-- A function that is built by a plan is well formed if the labels that were taken were placed, once each, and
temporaries were assigned once. -/
theorem Planned.wellFormed (h : f.Planned lo hi ports)
    (hplaced : ∀ k, lo < k → k ≤ hi → .numbered k ∈ f.placed) (hmarked : ∀ k, f.marked k ≤ 1)
    (hassigned : ∀ k, f.assigned k ≤ 1) : f.definition.WellFormed := by
  have hfinished := h.finished
  have hnames : f.placed = .entry :: f.code.toList.filterMap Line.label? :=
    f.names_code.symm.trans (names_layout _)
  have hnumbered {name : Label} (hname : name ∈ f.code.toList.filterMap Line.label?) : ∃ k, name = .numbered k := by
    have hwithin : name.Within lo hi := h.names name (hnames ▸ List.mem_cons_of_mem _ hname)
    cases name with
    | numbered k => exact ⟨k, rfl⟩
    | verbatim text => exact hwithin.elim
    | entry =>
      obtain ⟨line, hline, hlabel⟩ := List.mem_filterMap.mp hname
      cases line with
      | label other =>
        cases hlabel
        exact absurd (Array.mem_toList_iff.mp hline) hfinished.entry
      | _ => cases hlabel
  have hblocks : f.definition.blocks.map (·.name) = f.placed := f.names_code
  have hknown : ∀ b ∈ f.definition.blocks, ∀ n, (ports b.name).known n →
      f.definition.Assigns f.definition.body.toList n := by
    intro b hb n hn
    exact List.mem_append.mp (hfinished.known b.name (List.mem_map_of_mem hb) n hn)
  refine Plan.wellFormed (p := f.plan ports) rfl rfl hfinished.describes (hfinished.closes rfl) ?_ ?_ ?_ hknown
  · rw [hblocks, hnames]
    refine List.nodup_cons.mpr ⟨fun hentry => ?_, List.nodup_iff_count_le_one.mpr fun name => ?_⟩
    · obtain ⟨k, hk⟩ := hnumbered hentry
      cases hk
    · by_cases hname : name ∈ f.code.toList.filterMap Line.label?
      · obtain ⟨k, rfl⟩ := hnumbered hname
        rw [count_labels, Array.countP_toList, f.countP_code rfl]
        exact hmarked k
      · rw [List.count_eq_zero_of_not_mem hname]
        exact Nat.zero_le 1
  · intro x hx
    have hwithin := hfinished.targets x hx
    rw [hblocks]
    cases htarget : x.2 with
    | entry =>
      rw [hnames]
      exact List.mem_cons_self
    | verbatim text =>
      rw [htarget] at hwithin
      exact hwithin.elim
    | numbered k =>
      rw [htarget] at hwithin
      exact hplaced k hwithin.1 hwithin.2
  · refine List.nodup_iff_count_le_one.mpr fun n => ?_
    have hslots : f.definition.slotTemps.count n = f.slots.countP (·.1 = n) := by
      show (f.slots.toList.map (·.1)).count n = _
      rw [List.count_eq_countP, List.countP_map, ← Array.countP_toList]
      exact List.countP_congr fun x _ => by simp
    have htemps : (f.definition.body.toList.filterMap Line.temp?).count n = f.body.countP (·.assigns n) := by
      rw [count_temps, Array.countP_toList]
      exact f.countP_code rfl
    rw [List.count_append, hslots, htemps]
    exact hassigned n

/-- The labels of a function that is built by a plan are among those that were taken, each once. -/
theorem Planned.numbers (h : f.Planned lo hi ports) (hmarked : ∀ k, f.marked k ≤ 1) :
    f.definition.numbers.Nodup ∧ ∀ k ∈ f.definition.numbers, lo < k ∧ k ≤ hi := by
  refine ⟨List.nodup_iff_count_le_one.mpr fun k => ?_, fun k hk => ?_⟩
  · rw [Function.count_numbers, Array.countP_toList]
    exact (f.countP_code rfl).trans_le (hmarked k)
  · have hname : .numbered k ∈ f.code.toList.filterMap Line.label? := by
      rw [← List.count_pos_iff, count_labels]
      exact (List.count_pos_iff.mpr hk).trans_eq (f.definition.count_numbers k)
    refine h.names (.numbered k) ?_
    rw [← f.names_code, names_layout]
    exact List.mem_cons_of_mem _ hname

end OpenFunction

end OwnLang.Ir
