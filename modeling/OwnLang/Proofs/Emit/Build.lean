import Mathlib
import OwnLang.Ir.Builder

/-!
# What building steps add

The equations of the building steps come first. Then `Builder.Extends`: nothing that was built is
taken back. `Builder.Adds` says how much is new besides: the labels that are placed and the
temporaries that are assigned are told apart by how often they occur, so that a chain of steps is a
sum. A step by itself (`Builder.Grows`) places a label that it took no more than once, and assigns
each temporary that it took no more than once.
-/

namespace OwnLang.Ir

/-- A function whose next line goes to an open block, which is the one of a number if it is a new
one. -/
def OpenFunction.opened (f : OpenFunction) (number : Nat) : OpenFunction :=
  if f.terminated then
    { f with
      body := f.body.push (.label (.numbered number)), block := .numbered number
      terminated := false }
  else f

/-- The code of a function that is defined: control never comes to the end of a block that is open. -/
def OpenFunction.code (f : OpenFunction) : Array Line :=
  if f.terminated then f.body else f.body.push (.leave .unreachable)

/-- The definition of a function that is closed. -/
def OpenFunction.definition (f : OpenFunction) : Function :=
  { name := f.name, returns := f.returns, params := f.params, slots := f.slots, body := f.code }

theorem OpenFunction.countP_code (f : OpenFunction) {pred : Line → Bool}
    (h : pred (.leave .unreachable) = false) : f.code.countP pred = f.body.countP pred := by
  unfold code
  split
  · rfl
  · rw [Array.countP_push, h]
    simp

namespace Build

variable {α β : Type}

/-! ## Equations -/

theorem pure_apply (a : α) (b : Builder) : (pure a : Build α) b = (a, b) := rfl

theorem bind_apply (x : Build α) (f : α → Build β) (b : Builder) :
    (x >>= f) b = f (x b).1 (x b).2 := rfl

theorem get_apply (b : Builder) : (get : Build Builder) b = (b, b) := rfl

theorem set_apply (b b' : Builder) : (set b' : Build PUnit) b = (⟨⟩, b') := rfl

theorem modify_apply (f : Builder → Builder) (b : Builder) :
    (modify f : Build PUnit) b = (⟨⟩, f b) := rfl

/-- A builder whose next line goes to an open block. -/
def opened (b : Builder) : Builder :=
  if b.isTerminated then
    { b with labels := b.labels + 1 }.startBlock (.numbered (b.labels + 1))
  else b

theorem newLabel_apply (b : Builder) :
    newLabel b = (.numbered (b.labels + 1), { b with labels := b.labels + 1 }) := rfl

theorem push_apply (line : Line) (b : Builder) : push line b = (⟨⟩, (opened b).addLine line) := by
  cases h : b.isTerminated <;>
    simp [push, bind_apply, get_apply, modify_apply, newLabel_apply, opened, h]

theorem terminate_apply (terminator : Terminator) (b : Builder) :
    terminate terminator b = (⟨⟩, ((opened b).addLine (.leave terminator)).modifyFunction fun f =>
      { f with terminated := true }) := by
  simp only [terminate, bind_apply, push_apply, modify_apply]

theorem placeLabel_apply (label : Label) (b : Builder) :
    placeLabel label b =
      (⟨⟩, (if b.isTerminated then b else (br label b).2).startBlock label) := by
  cases h : b.isTerminated <;> simp [placeLabel, bind_apply, get_apply, modify_apply, h]

theorem string_apply (text : String) (b : Builder) :
    string text b = match b.strings.findIdx? (· == text) with
      | some number => (⟨.ptr, .string number⟩, b)
      | none =>
        (⟨.ptr, .string b.strings.size⟩,
          { b with
            strings := b.strings.push text
            module := { b.module with
              globals := b.module.globals.push (.string b.strings.size text) } }) := by
  simp only [string, bind_apply, get_apply]
  cases b.strings.findIdx? (· == text) with
  | none => rfl
  | some number => rfl

/-- A string constant is one of those that are known then. -/
theorem string_number (text : String) (b : Builder) :
    ∃ n < (string text b).2.strings.size, (string text b).1 = ⟨.ptr, .string n⟩ := by
  rw [string_apply]
  cases hfound : b.strings.findIdx? (· == text) with
  | some number => exact ⟨number, (Array.findIdx?_eq_some_iff_getElem.mp hfound).1, rfl⟩
  | none => exact ⟨b.strings.size, by simp, rfl⟩

theorem newTemp_apply (b : Builder) :
    newTemp b =
      (b.function.map (·.temps + 1), b.modifyFunction fun f => { f with temps := f.temps + 1 }) := by
  show ((b.modifyFunction _).function.map (·.temps), b.modifyFunction _) = _
  rw [Builder.modifyFunction, Option.map_map]
  rfl

/-- What a step does to the open function. -/
theorem opened_function (b : Builder) {f : OpenFunction} (hf : b.function = some f) :
    (opened b).function = some (f.opened (b.labels + 1)) := by
  have hclosed : b.isTerminated = f.terminated := by
    rw [Builder.isTerminated, hf]
    rfl
  unfold opened OpenFunction.opened
  rw [hclosed]
  cases f.terminated with
  | true => simp [Builder.startBlock, Builder.modifyFunction, hf]
  | false => simpa using hf

/-- A line at the end of a block that is open. -/
theorem push_open {b : Builder} {f : OpenFunction} (hf : b.function = some f)
    (hopen : f.terminated = false) (line : Line) :
    push line b = (⟨⟩, { b with function := some { f with body := f.body.push line } }) := by
  have hb : b.isTerminated = false := by
    rw [Builder.isTerminated, hf]
    exact hopen
  rw [push_apply, opened, hb]
  simp [Builder.addLine, Builder.modifyFunction, hf]

theorem result_apply (type : Ty) (instr : Instr) {b : Builder} {f : OpenFunction}
    (hf : b.function = some f) :
    result type instr b = (⟨type, .temp (f.temps + 1)⟩,
      (push (.result (f.temps + 1) instr)
        { b with function := some { f with temps := f.temps + 1 } }).2) := by
  simp only [result, bind_apply, newTemp_apply, pure_apply, Builder.modifyFunction, hf,
    Option.map_some]

/-- An instruction with a result at the end of a block that is open. -/
theorem result_open {b : Builder} {f : OpenFunction} (hf : b.function = some f)
    (hopen : f.terminated = false) (type : Ty) (instr : Instr) :
    result type instr b = (⟨type, .temp (f.temps + 1)⟩,
      { b with function := some { f with
          temps := f.temps + 1, body := f.body.push (.result (f.temps + 1) instr) } }) := by
  have hopen' : { f with temps := f.temps + 1 }.terminated = false := hopen
  rw [result_apply type instr hf, push_open rfl hopen']

/-- The end of a block that is open. -/
theorem terminate_open {b : Builder} {f : OpenFunction} (hf : b.function = some f)
    (hopen : f.terminated = false) (terminator : Terminator) :
    terminate terminator b = (⟨⟩, { b with function := some { f with
      body := f.body.push (.leave terminator), terminated := true } }) := by
  simp only [terminate, bind_apply, push_open hf hopen, modify_apply, Builder.modifyFunction,
    Option.map_some]

/-- A label behind a block that has its terminator. -/
theorem placeLabel_closed {b : Builder} {f : OpenFunction} (hf : b.function = some f)
    (hclosed : f.terminated = true) (label : Label) :
    placeLabel label b = (⟨⟩, { b with function := some { f with
      body := f.body.push (.label label), block := label, terminated := false } }) := by
  have hb : b.isTerminated = true := by
    rw [Builder.isTerminated, hf]
    exact hclosed
  rw [placeLabel_apply, hb, if_pos rfl, Builder.startBlock, Builder.modifyFunction, hf]
  rfl

/-- A label behind a block that is open. -/
theorem placeLabel_open {b : Builder} {f : OpenFunction} (hf : b.function = some f)
    (hopen : f.terminated = false) (label : Label) :
    placeLabel label b = (⟨⟩, { b with function := some { f with
      body := (f.body.push (.leave (.br label))).push (.label label), block := label
      terminated := false } }) := by
  have hb : b.isTerminated = false := by
    rw [Builder.isTerminated, hf]
    exact hopen
  rw [placeLabel_apply, hb, if_neg Bool.false_ne_true, br, terminate_open hf hopen]
  rfl

theorem slot_apply (type : Ty) {b : Builder} {f : OpenFunction} (hf : b.function = some f) :
    slot type b = (⟨.ptr, .temp (f.temps + 1)⟩,
      { b with function := some { f with
          temps := f.temps + 1, slots := f.slots.push (f.temps + 1, type) } }) := by
  simp only [slot, bind_apply, newTemp_apply, pure_apply, modify_apply, Builder.modifyFunction, hf,
    Option.map_some]

theorem endFunction_apply {b : Builder} {f : OpenFunction} (hf : b.function = some f) :
    endFunction b = (⟨⟩, { b with
      function := none
      module := { b.module with definitions := b.module.definitions.push f.definition } }) := by
  have hb : b.isTerminated = f.terminated := by
    rw [Builder.isTerminated, hf]
    rfl
  unfold endFunction OpenFunction.definition OpenFunction.code
  simp only [bind_apply, get_apply, hb]
  cases hclosed : f.terminated with
  | true => simp [modify_apply, hf]
  | false => simp [bind_apply, terminate_open hf hclosed, modify_apply]

end Build

/-! ## What is kept -/

/-- What an array holds is at the same places in another one. -/
def Begins {α : Type} (xs ys : Array α) : Prop :=
  ∀ (i : Nat) (x : α), xs[i]? = some x → ys[i]? = some x

namespace Begins

variable {α : Type} {xs ys zs : Array α}

theorem refl (xs : Array α) : Begins xs xs := fun _ _ h => h

theorem trans (h : Begins xs ys) (h' : Begins ys zs) : Begins xs zs :=
  fun i x hx => h' i x (h i x hx)

theorem push (xs : Array α) (x : α) : Begins xs (xs.push x) := by
  intro i y hy
  obtain ⟨hi, -⟩ := Array.getElem?_eq_some_iff.mp hy
  rw [Array.getElem?_push, if_neg (Nat.ne_of_lt hi)]
  exact hy

/-- What was put at the end is where the array ended. -/
theorem last {x : α} (h : Begins (xs.push x) ys) : ys[xs.size]? = some x :=
  h _ _ (by rw [Array.getElem?_push, if_pos rfl])

theorem size_le (h : Begins xs ys) : xs.size ≤ ys.size := by
  by_contra hlt
  have hy : ys.size < xs.size := by omega
  have hys := h ys.size xs[ys.size] (Array.getElem?_eq_getElem hy)
  rw [Array.getElem?_eq_none (Nat.le_refl _)] at hys
  cases hys

end Begins

namespace OpenFunction

/-- What was built of a function is not taken back. -/
structure Extends (f g : OpenFunction) : Prop where
  body : Begins f.body g.body
  slots : Begins f.slots g.slots
  temps : f.temps ≤ g.temps
  head : g.name = f.name ∧ g.returns = f.returns ∧ g.params = f.params

theorem Extends.refl (f : OpenFunction) : f.Extends f :=
  ⟨.refl _, .refl _, Nat.le_refl _, rfl, rfl, rfl⟩

theorem Extends.trans {f g h : OpenFunction} (hf : f.Extends g) (hg : g.Extends h) : f.Extends h :=
  ⟨hf.body.trans hg.body, hf.slots.trans hg.slots, hf.temps.trans hg.temps,
    hg.head.1.trans hf.head.1, hg.head.2.1.trans hf.head.2.1, hg.head.2.2.trans hf.head.2.2⟩

end OpenFunction

/-- What was built of a module is not taken back. -/
structure Builder.Extends (b b' : Builder) : Prop where
  strings : Begins b.strings b'.strings
  labels : b.labels ≤ b'.labels
  function : ∀ f, b.function = some f → ∃ g, b'.function = some g ∧ f.Extends g

theorem Builder.Extends.refl (b : Builder) : b.Extends b :=
  ⟨.refl _, Nat.le_refl _, fun f h => ⟨f, h, .refl f⟩⟩

theorem Builder.Extends.trans {a b c : Builder} (h : a.Extends b) (h' : b.Extends c) :
    a.Extends c where
  strings := h.strings.trans h'.strings
  labels := h.labels.trans h'.labels
  function f hf := by
    obtain ⟨g, hg, hfg⟩ := h.function f hf
    obtain ⟨k, hk, hgk⟩ := h'.function g hg
    exact ⟨k, hk, hfg.trans hgk⟩

/-! ## What is new -/

/-- Whether a line is the label of a numbered block. -/
def Line.marks (number : Nat) : Line → Bool
  | .label name => name = .numbered number
  | _ => false

/-- Whether a line assigns a temporary. -/
def Line.assigns (number : Nat) : Line → Bool
  | .result temp _ => temp = number
  | _ => false

/-- The numbers behind `lo` up to `hi`, each once. -/
def span (lo hi k : Nat) : Nat := if lo < k ∧ k ≤ hi then 1 else 0

namespace OpenFunction

/-- How often the label of a numbered block is placed. -/
def marked (f : OpenFunction) (number : Nat) : Nat := f.body.countP (·.marks number)

/-- How often a temporary is assigned: as the address of a slot or by a line. -/
def assigned (f : OpenFunction) (number : Nat) : Nat :=
  f.slots.countP (·.1 = number) + f.body.countP (·.assigns number)

/-- What is new in a function: slots, as many as `cells` says, labels, temporaries, and maybe the
current block, whose number is behind `lo` and not behind `hi`. -/
structure Adds (cells lo hi : Nat) (marks assigns : Nat → Nat) (f g : OpenFunction) : Prop
    extends f.Extends g where
  cells : g.slots.size = f.slots.size + cells
  marked : ∀ k, g.marked k ≤ f.marked k + marks k
  assigned : ∀ k, g.assigned k ≤ f.assigned k + assigns k
  block : g.block = f.block ∨ ∃ k, g.block = .numbered k ∧ lo < k ∧ k ≤ hi

variable {f g h : OpenFunction} {n n' lo hi hi' : Nat} {marks marks' assigns assigns' : Nat → Nat}

theorem Adds.refl (f : OpenFunction) (lo hi : Nat) : f.Adds 0 lo hi (fun _ => 0) (fun _ => 0) f where
  toExtends := .refl f
  cells := rfl
  marked _ := Nat.le_refl _
  assigned _ := Nat.le_refl _
  block := .inl rfl

theorem Adds.trans (hf : f.Adds n lo hi marks assigns g) (hg : g.Adds n' lo hi' marks' assigns' h)
    (hhi : hi ≤ hi') :
    f.Adds (n + n') lo hi' (fun k => marks k + marks' k) (fun k => assigns k + assigns' k) h where
  toExtends := hf.toExtends.trans hg.toExtends
  cells := by rw [hg.cells, hf.cells, Nat.add_assoc]
  marked k := by
    have := hf.marked k
    have := hg.marked k
    omega
  assigned k := by
    have := hf.assigned k
    have := hg.assigned k
    omega
  block := by
    rcases hg.block with hblock | hblock
    · rw [hblock]
      exact hf.block.imp id fun ⟨k, hk, hlo, hle⟩ => ⟨k, hk, hlo, hle.trans hhi⟩
    · exact .inr hblock

theorem Adds.mono {lo' : Nat} (hf : f.Adds n lo hi marks assigns g) (hlo : lo' ≤ lo)
    (hhi : hi ≤ hi') (hmarks : ∀ k, marks k ≤ marks' k) (hassigns : ∀ k, assigns k ≤ assigns' k) :
    f.Adds n lo' hi' marks' assigns' g where
  toExtends := hf.toExtends
  cells := hf.cells
  marked k := (hf.marked k).trans (Nat.add_le_add_left (hmarks k) _)
  assigned k := (hf.assigned k).trans (Nat.add_le_add_left (hassigns k) _)
  block := hf.block.imp id fun ⟨k, hk, hlo', hle⟩ =>
    ⟨k, hk, Nat.lt_of_le_of_lt hlo hlo', hle.trans hhi⟩

end OpenFunction

/-- The text of a string constant of a module. -/
def Module.text? (m : Module) (number : Nat) : Option String :=
  m.globals.toList.findSome? fun g =>
    match g with
    | .string n text => if n = number then some text else none
    | .named .. => none

namespace Builder

/-- The string constants of the module are those whose texts the builder knows. -/
def Listed (b : Builder) : Prop := ∀ n, b.module.text? n = b.strings[n]?

/-- Outside of the open function, a module that is being built has more string constants, which are numbered in
order, and is else the same. -/
structure Collects (b b' : Builder) : Prop where
  functions : b'.functions = b.functions
  structs : b'.module.structs = b.module.structs
  declarations : b'.module.declarations = b.module.declarations
  definitions : b'.module.definitions = b.module.definitions
  globals : ∃ texts : List String, b'.strings.toList = b.strings.toList ++ texts ∧
    b'.module.globals.toList = b.module.globals.toList ++
      (texts.zipIdx b.strings.size).map fun x => .string x.2 x.1

/-- What is new in a module that is being built. -/
structure Adds (cells lo : Nat) (marks : Nat → Nat) (b b' : Builder) : Prop where
  strings : Begins b.strings b'.strings
  labels : b.labels ≤ b'.labels
  collects : b.Collects b'
  listed : b.Listed → b'.Listed
  function : ∀ f, b.function = some f → ∃ g, b'.function = some g ∧
    f.Adds cells lo b'.labels marks (span f.temps g.temps) g

/-- What a step adds that takes the labels that it places. -/
def Grows (cells : Nat) (b b' : Builder) : Prop :=
  b.Adds cells b.labels (span b.labels b'.labels) b'

variable {a b c : Builder} {n n' lo : Nat} {marks marks' : Nat → Nat}

theorem collects_of_eq (hmodule : b.module = a.module) (hfunctions : b.functions = a.functions)
    (hstrings : b.strings = a.strings) : a.Collects b :=
  ⟨hfunctions, by rw [hmodule], by rw [hmodule], by rw [hmodule], [], by simp [hstrings], by simp [hmodule]⟩

theorem Collects.trans (h : a.Collects b) (h' : b.Collects c) : a.Collects c where
  functions := h'.functions.trans h.functions
  structs := h'.structs.trans h.structs
  declarations := h'.declarations.trans h.declarations
  definitions := h'.definitions.trans h.definitions
  globals := by
    obtain ⟨texts, hstrings, hb⟩ := h.globals
    obtain ⟨texts', hstrings', hc⟩ := h'.globals
    have hsize : b.strings.size = a.strings.size + texts.length := by simpa using congrArg List.length hstrings
    refine ⟨texts ++ texts', by rw [hstrings', hstrings, List.append_assoc], ?_⟩
    rw [hc, hb, hsize, List.zipIdx_append, List.map_append, List.append_assoc]

theorem Adds.toExtends (h : a.Adds n lo marks b) : a.Extends b where
  strings := h.strings
  labels := h.labels
  function f hf := by
    obtain ⟨g, hg, hfg⟩ := h.function f hf
    exact ⟨g, hg, hfg.toExtends⟩

theorem span_add_le {lo mid hi : Nat} (h : lo ≤ mid) (h' : mid ≤ hi) (k : Nat) :
    span lo mid k + span mid hi k ≤ span lo hi k := by
  unfold span
  split_ifs <;> omega

theorem Adds.refl (b : Builder) (lo : Nat) : b.Adds 0 lo (fun _ => 0) b where
  strings := .refl _
  labels := Nat.le_refl _
  collects := collects_of_eq rfl rfl rfl
  listed := id
  function f hf := ⟨f, hf, (OpenFunction.Adds.refl f lo b.labels).mono (Nat.le_refl _)
    (Nat.le_refl _) (fun _ => Nat.le_refl _) fun _ => Nat.zero_le _⟩

theorem Adds.trans (h : a.Adds n lo marks b) (h' : b.Adds n' lo marks' c) :
    a.Adds (n + n') lo (fun k => marks k + marks' k) c where
  strings := h.strings.trans h'.strings
  labels := h.labels.trans h'.labels
  collects := h.collects.trans h'.collects
  listed := h'.listed ∘ h.listed
  function f hf := by
    obtain ⟨g, hg, hfg⟩ := h.function f hf
    obtain ⟨k, hk, hgk⟩ := h'.function g hg
    exact ⟨k, hk, (hfg.trans hgk h'.labels).mono (Nat.le_refl _) (Nat.le_refl _)
      (fun _ => Nat.le_refl _) (span_add_le hfg.temps hgk.temps)⟩

theorem Adds.mono {lo' : Nat} (h : a.Adds n lo marks b) (hlo : lo' ≤ lo)
    (hmarks : ∀ k, marks k ≤ marks' k) : a.Adds n lo' marks' b where
  strings := h.strings
  labels := h.labels
  collects := h.collects
  listed := h.listed
  function f hf := by
    obtain ⟨g, hg, hfg⟩ := h.function f hf
    exact ⟨g, hg, hfg.mono hlo (Nat.le_refl _) hmarks fun _ => Nat.le_refl _⟩

/-- A step that places no label. -/
theorem Adds.grows (h : a.Adds n lo (fun _ => 0) b) (hlo : a.labels ≤ lo) : a.Grows n b :=
  h.mono hlo fun _ => Nat.zero_le _

theorem Grows.refl (b : Builder) : b.Grows 0 b := (Adds.refl b b.labels).grows (Nat.le_refl _)

theorem Grows.trans (h : a.Grows n b) (h' : b.Grows n' c) : a.Grows (n + n') c :=
  (Adds.trans h (h'.mono h.labels fun _ => Nat.le_refl _)).mono (Nat.le_refl _)
    (span_add_le h.labels h'.labels)

end Builder

/-! ## Steps -/

/-- A number, once. -/
def once (n k : Nat) : Nat := if k = n then 1 else 0

theorem once_le_span {lo hi n : Nat} (hlo : lo < n) (hhi : n ≤ hi) (k : Nat) :
    once n k ≤ span lo hi k := by
  unfold once span
  split_ifs <;> omega

namespace OpenFunction

variable (f : OpenFunction)

theorem adds_line (line : Line) (lo hi : Nat) :
    f.Adds 0 lo hi (fun k => if line.marks k then 1 else 0) (fun k => if line.assigns k then 1 else 0)
      { f with body := f.body.push line } where
  toExtends := ⟨.push _ _, .refl _, Nat.le_refl _, rfl, rfl, rfl⟩
  cells := rfl
  marked k := by simp [marked, Array.countP_push]
  assigned k := by simp [assigned, Array.countP_push]; omega
  block := .inl rfl

theorem adds_block {n lo hi : Nat} (hlo : lo < n) (hhi : n ≤ hi) :
    f.Adds 0 lo hi (once n) (fun _ => 0)
      { f with
        body := f.body.push (.label (.numbered n)), block := .numbered n, terminated := false } where
  toExtends := ⟨.push _ _, .refl _, Nat.le_refl _, rfl, rfl, rfl⟩
  cells := rfl
  marked k := by simp [marked, once, Array.countP_push, Line.marks, eq_comm]
  assigned k := by simp [assigned, Line.assigns]
  block := .inr ⟨n, rfl, hlo, hhi⟩

theorem adds_temp (lo hi : Nat) :
    f.Adds 0 lo hi (fun _ => 0) (fun _ => 0) { f with temps := f.temps + 1 } where
  toExtends := ⟨.refl _, .refl _, Nat.le_succ _, rfl, rfl, rfl⟩
  cells := rfl
  marked _ := Nat.le_refl _
  assigned _ := Nat.le_refl _
  block := .inl rfl

theorem adds_end (lo hi : Nat) :
    f.Adds 0 lo hi (fun _ => 0) (fun _ => 0) { f with terminated := true } where
  toExtends := ⟨.refl _, .refl _, Nat.le_refl _, rfl, rfl, rfl⟩
  cells := rfl
  marked _ := Nat.le_refl _
  assigned _ := Nat.le_refl _
  block := .inl rfl

theorem adds_slot (type : Ty) (lo hi : Nat) :
    f.Adds 1 lo hi (fun _ => 0) (once (f.temps + 1))
      { f with temps := f.temps + 1, slots := f.slots.push (f.temps + 1, type) } where
  toExtends := ⟨.refl _, .push _ _, Nat.le_succ _, rfl, rfl, rfl⟩
  cells := by simp
  marked _ := Nat.le_refl _
  assigned k := by
    simp [assigned, once, Array.countP_push, eq_comm]
    omega
  block := .inl rfl

end OpenFunction

theorem Builder.adds_modifyFunction {b : Builder} {change : OpenFunction → OpenFunction} {n lo : Nat}
    {marks : Nat → Nat}
    (h : ∀ f : OpenFunction, f.Adds n lo b.labels marks (span f.temps (change f).temps) (change f)) :
    b.Adds n lo marks (b.modifyFunction change) where
  strings := .refl _
  labels := Nat.le_refl _
  collects := Builder.collects_of_eq rfl rfl rfl
  listed := id
  function f hf := ⟨change f, by rw [modifyFunction, hf]; rfl, h f⟩

namespace Build

variable (b : Builder)

theorem adds_newLabel (lo : Nat) : b.Adds 0 lo (fun _ => 0) (newLabel b).2 where
  strings := .refl _
  labels := Nat.le_succ _
  collects := Builder.collects_of_eq rfl rfl rfl
  listed := id
  function f hf := ⟨f, hf, (OpenFunction.Adds.refl f _ _).mono (Nat.le_refl _) (Nat.le_refl _)
    (fun _ => Nat.le_refl _) fun _ => Nat.zero_le _⟩

theorem adds_startBlock {n lo : Nat} (hlo : lo < n) (hhi : n ≤ b.labels) :
    b.Adds 0 lo (once n) (b.startBlock (.numbered n)) :=
  Builder.adds_modifyFunction fun f => (f.adds_block hlo hhi).mono (Nat.le_refl _) (Nat.le_refl _)
    (fun _ => Nat.le_refl _) fun _ => Nat.zero_le _

theorem grows_opened : b.Grows 0 (opened b) := by
  unfold opened
  split
  · exact ((adds_newLabel b _).trans (adds_startBlock (newLabel b).2 (Nat.lt_succ_self _)
      (Nat.le_refl _))).mono (Nat.le_refl _) fun k => by
        rw [Nat.zero_add]
        exact once_le_span (Nat.lt_succ_self _) (Nat.le_refl _) k
  · exact .refl b

theorem adds_addLine {line : Line} (hmarks : ∀ k, line.marks k = false)
    (hassigns : ∀ k, line.assigns k = false) (lo : Nat) :
    b.Adds 0 lo (fun _ => 0) (b.addLine line) :=
  Builder.adds_modifyFunction fun f => (f.adds_line line _ _).mono (Nat.le_refl _) (Nat.le_refl _)
    (fun k => by simp [hmarks]) fun k => by simp [hassigns]

theorem adds_close (lo : Nat) :
    b.Adds 0 lo (fun _ => 0) (b.modifyFunction fun f => { f with terminated := true }) :=
  Builder.adds_modifyFunction fun f => (f.adds_end _ _).mono (Nat.le_refl _) (Nat.le_refl _)
    (fun _ => Nat.le_refl _) fun _ => Nat.zero_le _

theorem grows_push {line : Line} (hmarks : ∀ k, line.marks k = false)
    (hassigns : ∀ k, line.assigns k = false) : b.Grows 0 (push line b).2 := by
  rw [push_apply]
  exact (grows_opened b).trans ((adds_addLine _ hmarks hassigns _).grows (Nat.le_refl _))

theorem grows_terminate (terminator : Terminator) : b.Grows 0 (terminate terminator b).2 := by
  have hline : b.Grows 0 (push (.leave terminator) b).2 :=
    grows_push b (fun _ => rfl) fun _ => rfl
  rw [push_apply] at hline
  rw [terminate_apply]
  exact hline.trans ((adds_close _ _).grows (Nat.le_refl _))

theorem grows_effect (instr : Instr) : b.Grows 0 (effect instr b).2 :=
  grows_push b (fun _ => rfl) fun _ => rfl

theorem grows_slot (type : Ty) : b.Grows 1 (slot type b).2 := by
  cases hf : b.function with
  | none =>
    have hrest : (slot type b).2 = b := by
      simp only [slot, bind_apply, newTemp_apply, Builder.modifyFunction, hf, Option.map_none,
        pure_apply]
      rw [← hf]
    rw [hrest]
    exact { (Builder.Grows.refl b) with function := by simp [hf] }
  | some f =>
    rw [slot_apply type hf]
    refine ⟨.refl _, Nat.le_refl _, Builder.collects_of_eq rfl rfl rfl, id, fun g hg => ?_⟩
    cases hf.symm.trans hg
    exact ⟨_, rfl, (f.adds_slot type _ _).mono (Nat.le_refl _) (Nat.le_refl _)
      (fun _ => Nat.zero_le _) (once_le_span (Nat.lt_succ_self _) (Nat.le_refl _))⟩

theorem grows_result (type : Ty) (instr : Instr) : b.Grows 0 (result type instr b).2 := by
  cases hf : b.function with
  | none =>
    have hrest : (result type instr b).2 = (effect instr b).2 := by
      simp only [result, bind_apply, newTemp_apply, Builder.modifyFunction, hf, Option.map_none,
        pure_apply]
      rw [← hf]
    rw [hrest]
    exact grows_effect b instr
  | some f =>
    rw [result_apply type instr hf, push_apply]
    have hopened := grows_opened { b with function := some { f with temps := f.temps + 1 } }
    obtain ⟨hfunctions, hstructs, hdeclarations, hdefinitions, hglobals⟩ := hopened.collects
    refine ⟨hopened.strings, hopened.labels, ⟨hfunctions, hstructs, hdeclarations, hdefinitions, hglobals⟩,
      hopened.listed, fun g hg => ?_⟩
    cases hf.symm.trans hg
    obtain ⟨g, hg, hfg⟩ := hopened.function _ rfl
    refine ⟨{ g with body := g.body.push (.result (f.temps + 1) instr) }, ?_, ?_⟩
    · rw [Builder.addLine, Builder.modifyFunction, hg]
      rfl
    · have hline := g.adds_line (.result (f.temps + 1) instr) b.labels (opened
        { b with function := some { f with temps := f.temps + 1 } }).labels
      refine (((f.adds_temp b.labels b.labels).trans hfg hopened.labels).trans hline
        (Nat.le_refl _)).mono (Nat.le_refl _) (Nat.le_refl _) (fun k => ?_) fun k => ?_
      · simp [Line.marks]
        exact Nat.le_refl _
      · have htemps : f.temps + 1 ≤ g.temps := hfg.temps
        simp only [Line.assigns, span, Nat.zero_add, decide_eq_true_eq]
        split_ifs <;> omega

theorem grows_call (returns : Ty) (callee : Ref) (args : List Operand) (signature : Option Ty) :
    b.Grows 0 (call returns callee args signature b).2 := by
  unfold call
  split
  · exact grows_effect b _
  · exact grows_result b _ _

theorem grows_string (text : String) : b.Grows 0 (string text b).2 := by
  rw [string_apply]
  cases b.strings.findIdx? (· == text) with
  | some number => exact .refl b
  | none =>
    refine ⟨.push _ _, Nat.le_refl _, ⟨rfl, rfl, rfl, rfl, [text], by simp, by simp⟩,
      fun h n => ?_, fun f hf => ⟨f, hf, ?_⟩⟩
    · have hn := h n
      unfold Module.text? at hn ⊢
      rw [Array.toList_push, List.findSome?_append, hn, Array.getElem?_push]
      by_cases heq : n = b.strings.size
      · subst heq
        simp
      · rw [if_neg heq]
        simp [Ne.symm heq]
    · exact (OpenFunction.Adds.refl f _ _).mono (Nat.le_refl _) (Nat.le_refl _)
        (fun _ => Nat.zero_le _) fun _ => Nat.zero_le _

/-- A label that was taken behind `lo` is placed. -/
theorem adds_placeLabel {n lo : Nat} (hlo : lo < n) (hhi : n ≤ b.labels) :
    b.Adds 0 lo (once n) (placeLabel (.numbered n) b).2 := by
  rw [placeLabel_apply]
  cases hopen : b.isTerminated with
  | true => exact adds_startBlock b hlo hhi
  | false =>
    have hbr : (br (.numbered n) b).2 = (b.addLine (.leave (.br (.numbered n)))).modifyFunction
        fun f => { f with terminated := true } := by
      rw [br, terminate_apply, opened, hopen]
      rfl
    have hbefore : b.Adds 0 lo (fun _ => 0) (br (.numbered n) b).2 := by
      rw [hbr]
      exact (adds_addLine b (fun _ => rfl) (fun _ => rfl) lo).trans (adds_close _ lo)
    have hlabels : n ≤ (br (.numbered n) b).2.labels := hhi.trans hbefore.labels
    exact (hbefore.trans (adds_startBlock _ hlo hlabels)).mono (Nat.le_refl _) fun k => by
      rw [Nat.zero_add]

theorem extends_startBlock (label : Label) : b.Extends (b.startBlock label) where
  strings := .refl _
  labels := Nat.le_refl _
  function f hf :=
    ⟨{ f with body := f.body.push (.label label), block := label, terminated := false },
      by rw [Builder.startBlock, Builder.modifyFunction, hf]; rfl,
      .push _ _, .refl _, Nat.le_refl _, rfl, rfl, rfl⟩

theorem extends_placeLabel (label : Label) : b.Extends (placeLabel label b).2 := by
  rw [placeLabel_apply]
  split
  · exact extends_startBlock b label
  · exact (grows_terminate b _).toExtends.trans (extends_startBlock _ label)

end Build

end OwnLang.Ir
