import Mathlib
import OwnLang.Proofs.Emit.Build

/-!
# Functions as graphs of blocks

The lines of a function fall into blocks, each behind its label (`Function.blocks`). A function is well formed
(`Function.WellFormed`) if its blocks have different names and end with their only terminators, jumps lead to blocks
of the function, each temporary is assigned once and, on every way from the entry, before it is read, and the
incoming blocks of a `phi` are those that jump to its block.

Ways may be long. A `Plan` tells for each block what is assigned on all the ways to it, so that looking at each line
once is enough: a function that has a plan is well formed (`Plan.wellFormed`).
-/

namespace OwnLang.Ir

/-! ## What lines assign and read -/

/-- The temporary that a line assigns. -/
def Line.temp? : Line → Option Nat
  | .result temp _ => some temp
  | _ => none

/-- What an instruction reads. A `phi` reads nothing where it stands, but at the ends of other blocks. A text that is
written out by hand may read anything. -/
def Instr.refs : Instr → List Ref
  | .binary _ left right | .compare _ left right => [left.ref, right]
  | .convert _ value _ => [value.ref]
  | .load _ address => [address.ref]
  | .store value address => [value.ref, address.ref]
  | .addressOf _ base indices => base.ref :: indices.map (·.ref)
  | .extract aggregate _ => [aggregate.ref]
  | .insert aggregate value _ => [aggregate.ref, value.ref]
  | .select test yes no => [test.ref, yes.ref, no.ref]
  | .phi _ _ => []
  | .call _ callee args => callee :: args.map (·.ref)
  | .verbatim text => [.verbatim text]

/-- What a terminator reads. -/
def Terminator.refs : Terminator → List Ref
  | .condBr test _ _ => [test.ref]
  | .ret value => value.toList.map (·.ref)
  | .verbatim text => [.verbatim text]
  | .br _ | .unreachable => []

/-- Where a terminator jumps to. -/
def Terminator.targets : Terminator → List Label
  | .br target => [target]
  | .condBr _ yes no => [yes, no]
  | .ret _ | .unreachable | .verbatim _ => []

/-- What a line reads. -/
def Line.refs : Line → List Ref
  | .label _ => []
  | .result _ instr | .effect instr => instr.refs
  | .leave terminator => terminator.refs

/-- Where a line jumps to. -/
def Line.targets : Line → List Label
  | .leave terminator => terminator.targets
  | _ => []

/-- What an instruction that is a `phi` merges. -/
def Instr.incoming? : Instr → Option (List (Ref × Label))
  | .phi _ incoming => some incoming
  | _ => none

/-- What a line merges that is a `phi`. -/
def Line.incoming? : Line → Option (List (Ref × Label))
  | .result _ instr | .effect instr => instr.incoming?
  | _ => none

/-- What a line names, be it read there or merged. -/
def Line.mentions (line : Line) : List Ref := line.refs ++ (line.incoming?.getD []).map (·.1)

/-- Whether a line starts a block. -/
def Line.isLabel : Line → Bool
  | .label _ => true
  | .result .. | .effect _ | .leave _ => false

/-- Whether control goes on to the next line. -/
def Line.isPlain : Line → Bool
  | .result .. | .effect _ => true
  | .label _ | .leave _ => false

/-- What is named has a value: a parameter if there are as many, a temporary if it was assigned. -/
def Ref.Available (params : Nat) (assigned : Nat → Prop) : Ref → Prop
  | .temp number => assigned number
  | .param index => index < params
  | .verbatim _ => False
  | _ => True

theorem Ref.Available.mono {params : Nat} {assigned assigned' : Nat → Prop} {r : Ref}
    (h : r.Available params assigned) (hmore : ∀ n, assigned n → assigned' n) :
    r.Available params assigned' := by
  cases r with
  | temp n => exact hmore n h
  | _ => exact h

theorem Line.targets_plain {line : Line} (h : line.isPlain = true) : line.targets = [] := by
  cases line <;> first | rfl | cases h

theorem Line.isLabel_plain {line : Line} (h : line.isPlain = true) : line.isLabel = false := by
  cases line <;> first | rfl | cases h

/-! ## Blocks -/

/-- A block: its name and the lines behind its label. -/
structure Block where
  name : Label
  lines : List Line

/-- The temporaries that the lines of a block assign. -/
def Block.temps (b : Block) : List Nat := b.lines.filterMap Line.temp?

/-- Where a block jumps to. -/
def Block.targets (b : Block) : List Label := b.lines.flatMap Line.targets

/-- Lines in blocks: those that another one follows, and the last. -/
structure Layout where
  closed : List Block
  last : Block

namespace Layout

/-- One more line. -/
def add (l : Layout) : Line → Layout
  | .label name => ⟨l.closed ++ [l.last], ⟨name, []⟩⟩
  | line => ⟨l.closed, ⟨l.last.name, l.last.lines ++ [line]⟩⟩

def blocks (l : Layout) : List Block := l.closed ++ [l.last]

/-- The jumps from block to block. -/
def jumps (l : Layout) : List (Label × Label) := l.blocks.flatMap fun b => b.targets.map (b.name, ·)

theorem mem_jumps {l : Layout} {source target : Label} :
    (source, target) ∈ l.jumps ↔ ∃ b ∈ l.blocks, b.name = source ∧ target ∈ b.targets := by
  simp only [jumps, List.mem_flatMap, List.mem_map, Prod.mk.injEq]
  constructor
  · rintro ⟨b, hb, target', htarget, hname, rfl⟩
    exact ⟨b, hb, hname, htarget⟩
  · rintro ⟨b, hb, hname, htarget⟩
    exact ⟨b, hb, target, htarget, hname, rfl⟩

/-- A line that is no label is put at the end of the last block. -/
theorem add_line (l : Layout) {line : Line} (h : line.isLabel = false) :
    l.add line = ⟨l.closed, ⟨l.last.name, l.last.lines ++ [line]⟩⟩ := by
  cases line with
  | label name => cases h
  | _ => rfl

theorem jumps_line (l : Layout) {line : Line} (h : line.isLabel = false) :
    (l.add line).jumps = l.jumps ++ line.targets.map (l.last.name, ·) := by
  rw [add_line l h]
  simp [jumps, blocks, Block.targets]

theorem jumps_label (l : Layout) (name : Label) : (l.add (.label name)).jumps = l.jumps := by
  simp [jumps, blocks, add, Block.targets]

end Layout

/-- Lines in blocks, the first of which is the entry. -/
def layout (lines : List Line) : Layout := lines.foldl Layout.add ⟨[], ⟨.entry, []⟩⟩

theorem layout_push (lines : Array Line) (line : Line) :
    layout (lines.push line).toList = (layout lines.toList).add line := by
  simp [layout]

/-- The first block is the entry. -/
theorem head_layout (lines : List Line) : (layout lines).blocks.head?.map (·.name) = some .entry := by
  suffices h : ∀ l : Layout, l.blocks.head?.map (·.name) = some .entry →
      (lines.foldl Layout.add l).blocks.head?.map (·.name) = some .entry from h _ rfl
  induction lines with
  | nil => exact fun _ h => h
  | cons line rest ih =>
    refine fun l h => ih _ ?_
    unfold Layout.blocks at h ⊢
    cases line <;> cases hclosed : l.closed <;> simp_all [Layout.add]

/-- What stands in a block is one of the lines. -/
theorem mem_of_layout {lines : List Line} {b : Block} (hb : b ∈ (layout lines).blocks) {line : Line}
    (hline : line ∈ b.lines) : line ∈ lines := by
  suffices h : ∀ l : Layout, b ∈ (lines.foldl Layout.add l).blocks →
      line ∈ lines ∨ ∃ b' ∈ l.blocks, line ∈ b'.lines by
    refine (h _ hb).resolve_right ?_
    rintro ⟨b', hb', hline'⟩
    rw [List.mem_singleton.mp hb'] at hline'
    exact absurd hline' List.not_mem_nil
  clear hb
  induction lines with
  | nil => exact fun l hb => .inr ⟨b, hb, hline⟩
  | cons first rest ih =>
    intro l hb
    rcases ih _ hb with hrest | ⟨b', hb', hline'⟩
    · exact .inl (List.mem_cons_of_mem _ hrest)
    · cases hlabel : first.isLabel with
      | true =>
        obtain ⟨name, rfl⟩ : ∃ name, first = .label name := by
          cases first with
          | label name => exact ⟨name, rfl⟩
          | _ => cases hlabel
        rcases List.mem_append.mp hb' with hb' | hb'
        · exact .inr ⟨b', hb', hline'⟩
        · rw [List.mem_singleton.mp hb'] at hline'
          exact absurd hline' List.not_mem_nil
      | false =>
        rw [Layout.add_line l hlabel] at hb'
        rcases List.mem_append.mp hb' with hb' | hb'
        · exact .inr ⟨b', List.mem_append_left _ hb', hline'⟩
        · rw [List.mem_singleton.mp hb'] at hline'
          rcases List.mem_append.mp hline' with hline' | hline'
          · exact .inr ⟨l.last, List.mem_append_right _ (List.mem_singleton_self _), hline'⟩
          · exact .inl (List.mem_singleton.mp hline' ▸ List.mem_cons_self)

namespace Function

variable (f : Function)

/-- The blocks of a function. -/
def blocks : List Block := (layout f.body.toList).blocks

/-- The addresses of slots. -/
def slotTemps : List Nat := f.slots.toList.map (·.1)

/-- The numbers of the labels of a function, the entry aside. -/
def numbers : List Nat := f.body.toList.filterMap fun
  | .label (.numbered number) => some number
  | _ => none

/-- The ways from the entry of a function to a block, with the blocks in front of it. -/
inductive Path : List Block → Block → Prop
  | entry {b : Block} (h : f.blocks.head? = some b) : Path [] b
  | jump {passed : List Block} {b b' : Block} (h : Path passed b) (hb : b' ∈ f.blocks)
      (hjump : b'.name ∈ b.targets) : Path (passed ++ [b]) b'

/-- A temporary is the address of a slot, which is reserved in the entry, or some lines assign it. -/
def Assigns (lines : List Line) (number : Nat) : Prop :=
  number ∈ f.slotTemps ∨ number ∈ lines.filterMap Line.temp?

/-- A function is a graph of blocks in static single assignment form. -/
structure WellFormed : Prop where
  /-- No two blocks have one name. -/
  names : (f.blocks.map (·.name)).Nodup
  /-- A block has one terminator, at its end. -/
  ends : ∀ b ∈ f.blocks, ∃ lines terminator, b.lines = lines ++ [.leave terminator] ∧
    ∀ line ∈ lines, line.isPlain = true
  /-- Jumps lead to blocks of the function. -/
  targets : ∀ b ∈ f.blocks, ∀ target ∈ b.targets, ∃ b' ∈ f.blocks, b'.name = target
  /-- No temporary is assigned twice. -/
  assigned : (f.slotTemps ++ f.body.toList.filterMap Line.temp?).Nodup
  /-- Temporaries and parameters that are named exist, also where control never comes to. -/
  defined : ∀ b ∈ f.blocks, ∀ line ∈ b.lines, ∀ r ∈ line.mentions,
    r.Available f.params.length (f.Assigns f.body.toList)
  /-- On every way to it, a line reads what was assigned in front of it. -/
  reads : ∀ passed b, f.Path passed b → ∀ before line after, b.lines = before ++ line :: after →
    ∀ r ∈ line.refs, r.Available f.params.length (f.Assigns (passed.flatMap (·.lines) ++ before))
  /-- On every way to it, a `phi` reads what was assigned by the end of the block that the way comes from. -/
  merges : ∀ passed source b, f.Path (passed ++ [source]) b → ∀ line ∈ b.lines, ∀ incoming,
    line.incoming? = some incoming → ∀ r, (r, source.name) ∈ incoming →
      r.Available f.params.length (f.Assigns ((passed ++ [source]).flatMap (·.lines)))
  /-- The incoming blocks of a `phi` are those that jump to its block. -/
  incoming : ∀ b ∈ f.blocks, ∀ line ∈ b.lines, ∀ incoming, line.incoming? = some incoming →
    (incoming.map (·.2)).Nodup ∧ ∀ source, source ∈ incoming.map (·.2) ↔
      ∃ b' ∈ f.blocks, b'.name = source ∧ b.name ∈ b'.targets

end Function

/-- The functions of a module are graphs of blocks in static single assignment form, and no two of its labels have
one number. -/
structure Module.WellFormed (m : Module) : Prop where
  functions : ∀ f ∈ m.definitions, f.WellFormed
  numbers : (m.definitions.toList.flatMap Function.numbers).Nodup

/-! ## Plans -/

/-- What is known of a block from outside. -/
structure Port where
  /-- The temporaries that are assigned on every way to the block. -/
  known : Nat → Prop
  /-- Whether the block has a `phi`. -/
  merges : Prop

/-- The port of a block that control may come to from anywhere. -/
def Port.plain : Port := ⟨fun _ => False, False⟩

/-- What is known of a function: how many parameters it has, the addresses of its slots, and its blocks. -/
structure Plan where
  params : Nat
  slots : List Nat
  ports : Label → Port

namespace Plan

variable (p : Plan)

/-- A temporary is assigned by the end of some lines of a block. -/
def Assigned (b : Block) (number : Nat) : Prop :=
  number ∈ p.slots ∨ (p.ports b.name).known number ∨ number ∈ b.temps

/-- A line may stand where some temporaries are assigned. -/
structure Fits (assigned : Nat → Prop) (line : Line) : Prop where
  refs : ∀ r ∈ line.refs, r.Available p.params assigned
  targets : ∀ target ∈ line.targets, ∀ n, (p.ports target).known n → assigned n

/-- Lines of a block in front of its terminator. -/
inductive Fills (name : Label) : List Line → Prop
  | nil : Fills name []
  | snoc {lines : List Line} {line : Line} (h : Fills name lines) (hplain : line.isPlain = true)
      (hfits : p.Fits (p.Assigned ⟨name, lines⟩) line) : Fills name (lines ++ [line])

/-- A block is complete. -/
def Closes (b : Block) : Prop :=
  ∃ lines terminator, b.lines = lines ++ [.leave terminator] ∧ p.Fills b.name lines ∧
    p.Fits (p.Assigned ⟨b.name, lines⟩) (.leave terminator)

/-- A `phi` of a block merges what is assigned in the blocks that jump to it. -/
structure Merges (l : Layout) (name : Label) (incoming : List (Ref × Label)) : Prop where
  port : (p.ports name).merges
  distinct : (incoming.map (·.2)).Nodup
  sources : ∀ source, source ∈ incoming.map (·.2) ↔ (source, name) ∈ l.jumps
  values : ∀ x ∈ incoming, ∃ b ∈ l.closed, b.name = x.2 ∧ x.1.Available p.params (p.Assigned b)

/-- A plan describes lines in blocks, of which the last need not be complete. -/
structure Describes (l : Layout) : Prop where
  entry : ∀ n, ¬(p.ports .entry).known n
  closed : ∀ b ∈ l.closed, p.Closes b
  merges : ∀ b ∈ l.blocks, ∀ line ∈ b.lines, ∀ incoming, line.incoming? = some incoming →
    p.Merges l b.name incoming

variable {p} {b : Block} {name : Label} {lines : List Line} {l : Layout}

/-- A line among others is the last one or stands in front of it. -/
theorem eq_last_or_before {before after : List Line} {line last : Line}
    (h : lines ++ [last] = before ++ line :: after) :
    (before = lines ∧ line = last) ∨ ∃ after', lines = before ++ line :: after' := by
  rcases List.eq_nil_or_concat' after with rfl | ⟨after, x, rfl⟩
  · obtain ⟨hlines, hlast⟩ := List.append_inj' h rfl
    exact .inl ⟨hlines.symm, (List.singleton_inj.mp hlast).symm⟩
  · rw [← List.cons_append, ← List.append_assoc] at h
    exact .inr ⟨after, (List.append_inj' h rfl).1⟩

theorem Fills.isPlain (h : p.Fills name lines) : ∀ line ∈ lines, line.isPlain = true := by
  induction h with
  | nil => exact fun _ hline => absurd hline List.not_mem_nil
  | snoc _ hplain _ ih =>
    intro line hline
    rcases List.mem_append.mp hline with hline | hline
    · exact ih line hline
    · rwa [List.mem_singleton.mp hline]

theorem Fills.fits (h : p.Fills name lines) {before after : List Line} {line : Line}
    (hlines : lines = before ++ line :: after) : p.Fits (p.Assigned ⟨name, before⟩) line := by
  induction h generalizing after with
  | nil => simp at hlines
  | snoc _ _ hfits ih =>
    rcases eq_last_or_before hlines with ⟨rfl, rfl⟩ | ⟨after', hbefore⟩
    · exact hfits
    · exact ih hbefore

/-- A line of a complete block may stand behind those in front of it. -/
theorem Closes.fits (h : p.Closes b) {before after : List Line} {line : Line}
    (hlines : b.lines = before ++ line :: after) : p.Fits (p.Assigned ⟨b.name, before⟩) line := by
  obtain ⟨inner, terminator, hb, hfills, hfits⟩ := h
  rcases eq_last_or_before (hb.symm.trans hlines) with ⟨rfl, rfl⟩ | ⟨after', hbefore⟩
  · exact hfits
  · exact hfills.fits hbefore

/-- What is known where a block jumps to is assigned by its end. -/
theorem Closes.targets (h : p.Closes b) {target : Label} (htarget : target ∈ b.targets) {n : Nat}
    (hn : (p.ports target).known n) : p.Assigned b n := by
  obtain ⟨inner, terminator, hb, hfills, hfits⟩ := h
  have hinner : inner.flatMap Line.targets = [] :=
    List.flatMap_eq_nil_iff.mpr fun line hline => Line.targets_plain (hfills.isPlain line hline)
  rw [Block.targets, hb, List.flatMap_append, hinner, List.nil_append, List.flatMap_singleton] at htarget
  refine (hfits.targets target htarget n hn).imp id (.imp id fun hmem => ?_)
  rw [Block.temps, hb, List.filterMap_append]
  exact List.mem_append_left _ hmem

/-- A plan of the same function that tells as much of some blocks, and that more slots are reserved for. -/
structure Grows (p p' : Plan) (old : Label → Prop) : Prop where
  params : p'.params = p.params
  slots : ∀ n ∈ p.slots, n ∈ p'.slots
  ports : ∀ name, old name → p'.ports name = p.ports name

section

variable {p' : Plan} {old : Label → Prop}

theorem Assigned.grows (hp : p.Grows p' old) (hname : old b.name) {n : Nat} (h : p.Assigned b n) :
    p'.Assigned b n := by
  unfold Assigned
  rw [hp.ports b.name hname]
  exact h.imp (hp.slots n) id

theorem Fits.grows {assigned assigned' : Nat → Prop} {line : Line} (hp : p.Grows p' old)
    (hmore : ∀ n, assigned n → assigned' n) (htargets : ∀ target ∈ line.targets, old target)
    (h : p.Fits assigned line) : p'.Fits assigned' line where
  refs r hr := by
    rw [hp.params]
    exact (h.refs r hr).mono hmore
  targets target htarget n hn := by
    rw [hp.ports target (htargets target htarget)] at hn
    exact hmore n (h.targets target htarget n hn)

theorem Fills.grows (hp : p.Grows p' old) (hname : old name) (h : p.Fills name lines) :
    p'.Fills name lines := by
  induction h with
  | nil => exact .nil
  | snoc _ hplain hfits ih =>
    refine .snoc ih hplain (hfits.grows hp (fun n hn => hn.grows hp hname) ?_)
    rw [Line.targets_plain hplain]
    exact fun _ h => absurd h List.not_mem_nil

theorem Closes.grows (hp : p.Grows p' old) (hname : old b.name) (htargets : ∀ target ∈ b.targets, old target)
    (h : p.Closes b) : p'.Closes b := by
  obtain ⟨lines, terminator, hb, hfills, hfits⟩ := h
  have hleave : ∀ target ∈ (Line.leave terminator).targets, old target := by
    intro target htarget
    refine htargets target ?_
    rw [Block.targets, hb, List.flatMap_append, List.flatMap_singleton]
    exact List.mem_append_right _ htarget
  exact ⟨lines, terminator, hb, hfills.grows hp hname,
    hfits.grows hp (fun n hn => hn.grows (b := ⟨b.name, lines⟩) hp hname) hleave⟩

theorem Merges.grows {incoming : List (Ref × Label)} (hp : p.Grows p' old) (hname : old name)
    (hold : ∀ b ∈ l.closed, old b.name) (h : p.Merges l name incoming) : p'.Merges l name incoming where
  port := by
    rw [hp.ports name hname]
    exact h.port
  distinct := h.distinct
  sources := h.sources
  values x hx := by
    obtain ⟨b, hb, hsource, havailable⟩ := h.values x hx
    rw [hp.params]
    exact ⟨b, hb, hsource, havailable.mono fun n hn => hn.grows hp (hold b hb)⟩

theorem Describes.grows (hp : p.Grows p' old) (hentry : old .entry) (hnames : ∀ b ∈ l.blocks, old b.name)
    (htargets : ∀ x ∈ l.jumps, old x.2) (h : p.Describes l) : p'.Describes l where
  entry := by
    rw [hp.ports .entry hentry]
    exact h.entry
  closed b hb := by
    have hmem : b ∈ l.blocks := List.mem_append_left _ hb
    exact (h.closed b hb).grows hp (hnames b hmem) fun target htarget =>
      htargets _ (Layout.mem_jumps.mpr ⟨b, hmem, rfl, htarget⟩)
  merges b hb line hline incoming hincoming :=
    (h.merges b hb line hline incoming hincoming).grows hp (hnames b hb) fun b' hb' =>
      hnames b' (List.mem_append_left _ hb')

end

section

variable {f : Function}

/-- What is known of a block is assigned on every way to it. -/
theorem assigns_path (hslots : p.slots = f.slotTemps) (hentry : ∀ n, ¬(p.ports .entry).known n)
    (hcloses : ∀ b ∈ f.blocks, p.Closes b) {passed : List Block} (hpath : f.Path passed b) :
    b ∈ f.blocks ∧ ∀ n, (p.ports b.name).known n → f.Assigns (passed.flatMap (·.lines)) n := by
  induction hpath with
  | @entry b h =>
    refine ⟨List.mem_of_mem_head? h, fun n hn => absurd hn ?_⟩
    have hname := head_layout f.body.toList
    rw [show (layout f.body.toList).blocks.head? = some b from h] at hname
    have hb : b.name = .entry := Option.some.inj hname
    rw [hb]
    exact hentry n
  | @jump passed b b' _ hb' hjump ih =>
    refine ⟨hb', fun n hn => ?_⟩
    rw [List.flatMap_append, List.flatMap_singleton]
    rcases (hcloses b ih.1).targets hjump hn with hslot | hknown | htemp
    · exact .inl (hslots ▸ hslot)
    · refine (ih.2 n hknown).imp id fun hmem => ?_
      rw [List.filterMap_append]
      exact List.mem_append_left _ hmem
    · refine .inr ?_
      rw [List.filterMap_append]
      exact List.mem_append_right _ htemp

/-- What is assigned by the end of some lines of a block is assigned on every way there. -/
theorem assigns_assigned (hslots : p.slots = f.slotTemps) {passed : List Block}
    (hpassed : ∀ n, (p.ports name).known n → f.Assigns (passed.flatMap (·.lines)) n) {n : Nat}
    (hn : p.Assigned ⟨name, lines⟩ n) : f.Assigns (passed.flatMap (·.lines) ++ lines) n := by
  rcases hn with hslot | hknown | htemp
  · exact .inl (hslots ▸ hslot)
  · refine (hpassed n hknown).imp id fun hmem => ?_
    rw [List.filterMap_append]
    exact List.mem_append_left _ hmem
  · refine .inr ?_
    rw [List.filterMap_append]
    exact List.mem_append_right _ htemp

/-- A function that has a plan is well formed. -/
theorem wellFormed (hparams : p.params = f.params.length) (hslots : p.slots = f.slotTemps)
    (h : p.Describes (layout f.body.toList)) (hlast : p.Closes (layout f.body.toList).last)
    (hnames : (f.blocks.map (·.name)).Nodup)
    (htargets : ∀ x ∈ (layout f.body.toList).jumps, x.2 ∈ f.blocks.map (·.name))
    (hassigned : (f.slotTemps ++ f.body.toList.filterMap Line.temp?).Nodup)
    (hknown : ∀ b ∈ f.blocks, ∀ n, (p.ports b.name).known n → f.Assigns f.body.toList n) : f.WellFormed := by
  have hcloses : ∀ b ∈ f.blocks, p.Closes b := by
    intro b hb
    rcases List.mem_append.mp hb with hb | hb
    · exact h.closed b hb
    · rwa [List.mem_singleton.mp hb]
  have hdefined {b : Block} (hb : b ∈ f.blocks) {lines : List Line} (hlines : ∀ line ∈ lines, line ∈ b.lines)
      {n : Nat} (hn : p.Assigned ⟨b.name, lines⟩ n) : f.Assigns f.body.toList n := by
    rcases hn with hslot | hport | htemp
    · exact .inl (hslots ▸ hslot)
    · exact hknown b hb n hport
    · obtain ⟨line, hline, hassigns⟩ := List.mem_filterMap.mp htemp
      exact .inr (List.mem_filterMap.mpr ⟨line, mem_of_layout hb (hlines line hline), hassigns⟩)
  refine ⟨hnames, ?ends, ?targets, hassigned, ?defined, ?reads, ?merges, ?incoming⟩
  case ends =>
    intro b hb
    obtain ⟨lines, terminator, hlines, hfills, -⟩ := hcloses b hb
    exact ⟨lines, terminator, hlines, hfills.isPlain⟩
  case targets =>
    intro b hb target htarget
    have hjump : (b.name, target) ∈ (layout f.body.toList).jumps :=
      Layout.mem_jumps.mpr ⟨b, hb, rfl, htarget⟩
    obtain ⟨b', hb', hname⟩ := List.mem_map.mp (htargets _ hjump)
    exact ⟨b', hb', hname⟩
  case defined =>
    intro b hb line hline r hr
    rw [← hparams]
    rcases List.mem_append.mp hr with hr | hr
    · obtain ⟨before, after, hlines⟩ := List.append_of_mem hline
      refine (((hcloses b hb).fits hlines).refs r hr).mono fun n hn => hdefined hb (fun other hother => ?_) hn
      rw [hlines]
      exact List.mem_append_left _ hother
    · cases hincoming : line.incoming? with
      | none =>
        rw [hincoming] at hr
        exact absurd hr List.not_mem_nil
      | some incoming =>
        rw [hincoming] at hr
        obtain ⟨x, hx, rfl⟩ := List.mem_map.mp hr
        obtain ⟨source, hsource, -, havailable⟩ := (h.merges b hb line hline incoming hincoming).values x hx
        exact havailable.mono fun n hn => hdefined (List.mem_append_left _ hsource) (fun _ => id) hn
  case reads =>
    intro passed b hpath before line after hlines r hr
    obtain ⟨hb, hpassed⟩ := assigns_path hslots h.entry hcloses hpath
    rw [← hparams]
    exact (((hcloses b hb).fits hlines).refs r hr).mono fun n => assigns_assigned hslots hpassed
  case merges =>
    intro passed source b hpath line hline incoming hincoming r hr
    generalize hall : passed ++ [source] = all at hpath
    cases hpath with
    | entry h => simp at hall
    | @jump passed' source' _ hbefore hb hjump =>
      obtain ⟨rfl, heq⟩ := List.append_inj' hall rfl
      obtain rfl := List.singleton_inj.mp heq
      obtain ⟨hsource, hpassed⟩ := assigns_path hslots h.entry hcloses hbefore
      obtain ⟨b', hb', hname, havailable⟩ := (h.merges b hb line hline incoming hincoming).values _ hr
      have hsame : b' = source := List.inj_on_of_nodup_map hnames
        (List.mem_append_left _ hb') hsource hname
      rw [← hparams, List.flatMap_append, List.flatMap_singleton]
      exact (hsame ▸ havailable).mono fun n => assigns_assigned hslots hpassed
  case incoming =>
    intro b hb line hline incoming hincoming
    have hmerges := h.merges b hb line hline incoming hincoming
    exact ⟨hmerges.distinct, fun source => (hmerges.sources source).trans Layout.mem_jumps⟩

end

end Plan

end OwnLang.Ir
