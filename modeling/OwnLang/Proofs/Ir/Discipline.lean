import OwnLang.Proofs.Ir.Rendered
import OwnLang.Proofs.Ir.Strings

/-!
# The blocks that operations build

Between the start and the end of a function, a builder may be asked for anything in any order: labels,
terminators in the middle of a block, instructions behind them, slots. `OpenFunction.Disciplined` is what all
of this leaves alone: the blocks in front of the last have one terminator each, at their ends, the labels that
are placed have different numbers, and so have the results. The labels that were handed out and are not
placed yet are a part of it (`free`), because an unasked-for block may take none of them.

`leaves_run` is one operation and `disciplined_runAll` a sequence. A definition is then read as a text
(`Function.Disciplined`): `disciplined_endFunction`.
-/

namespace OwnLang.Ir

theorem Line.temp?_effect (instr : Instr) : (effect instr).temp? = none := rfl

theorem Line.temp?_leave (terminator : Terminator) : (leave terminator).temp? = none := rfl

/-! ## Ordinary lines -/

namespace Line

theorem ordinary_label (n : Nat) : (label (.numbered n)).Ordinary := by
  show ' ' ∉ ("L" ++ toString n).toList
  rw [String.toList_append, List.mem_append, not_or]
  exact ⟨by decide, fun hmem => ne_of_mem_toString hmem (by decide) rfl⟩

theorem ordinary_load (type : Ty) (address : Operand) : (effect (.load type address)).Ordinary := by
  show isTerminator ("load " ++ type.text ++ ", " ++ address.text) = false ∧
    isLabelLine ("load " ++ type.text ++ ", " ++ address.text) = false
  exact ⟨by simp [isTerminator, opcodeOf, wordOf, terminatorWords], isLabelLine_of_blank (by simp)⟩

theorem ordinary_store (value address : Operand) : (effect (.store value address)).Ordinary := by
  show isTerminator ("store " ++ value.text ++ ", " ++ address.text) = false ∧
    isLabelLine ("store " ++ value.text ++ ", " ++ address.text) = false
  exact ⟨by simp [isTerminator, opcodeOf, wordOf, terminatorWords], isLabelLine_of_blank (by simp)⟩

theorem ordinary_call (type : Ty) (callee : Ref) (args : List Operand) : (effect (.call type callee args)).Ordinary := by
  show isTerminator ("call " ++ type.text ++ " " ++ callee.text ++ "(" ++ operandTexts args ++ ")") = false ∧
    isLabelLine ("call " ++ type.text ++ " " ++ callee.text ++ "(" ++ operandTexts args ++ ")") = false
  exact ⟨by simp [isTerminator, opcodeOf, wordOf, terminatorWords], isLabelLine_of_blank (by simp)⟩

theorem ordinary_br (target : Label) : (leave (.br target)).Ordinary := by
  show isTerminator ("br " ++ target.targetText) = true
  simp [isTerminator, opcodeOf, wordOf, terminatorWords]

theorem ordinary_condBr (test : Operand) (yes no : Label) : (leave (.condBr test yes no)).Ordinary := by
  show isTerminator ("br " ++ commaSeparated [test.text, yes.targetText, no.targetText]) = true
  simp [isTerminator, opcodeOf, wordOf, terminatorWords]

theorem ordinary_ret (value : Option Operand) : (leave (.ret value)).Ordinary := by
  cases value with
  | none =>
    show isTerminator "ret void" = true
    decide
  | some v =>
    show isTerminator ("ret " ++ v.text) = true
    simp [isTerminator, opcodeOf, wordOf, terminatorWords]

theorem ordinary_unreachable : (leave .unreachable).Ordinary := by
  show isTerminator "unreachable" = true
  decide

end Line

/-! ## Functions -/

/-- The line of a slot. -/
def slotRow (slot : Nat × Ty) : String := indented (slotText slot)

theorem slotRow_eq (n : Nat) (type : Ty) : slotRow (n, type) = indented ((Ref.temp n).text ++ " = alloca " ++ type.text) := by
  rw [slotRow, slotText, resultText]
  congr 1
  rw [← String.toList_inj]
  simp

theorem isLabelLine_slotRow (slot : Nat × Ty) : isLabelLine (slotRow slot) = false :=
  isLabelLine_indented (isLabelLine_resultText _ _)

theorem isTerminator_slotRow (slot : Nat × Ty) : isTerminator (slotRow slot) = false := by
  rw [slotRow, isTerminator_indented]
  exact isTerminator_resultText (by simp [isTerminator, opcodeOf, wordOf, terminatorWords])

/-- A block has one terminator, at its end. -/
def Block.Ends (b : Block) : Prop :=
  ∃ lines terminator, b.lines = lines ++ [.leave terminator] ∧ ∀ line ∈ lines, line.isPlain = true

namespace OpenFunction

/-- The discipline of a function that is open, while `labels` labels were taken. The labels that are `free`
were handed out and are not placed; `rows` are the lines of the slots, and `results` the
temporaries that were answered. -/
structure Disciplined (labels : Nat) (free : Nat → Prop) (rows : List String) (results : List Nat)
    (f : OpenFunction) : Prop where
  closed : ∀ b ∈ f.layout.closed, b.Ends
  last : f.terminated = true → f.layout.last.Ends
  plain : f.terminated = false → ∀ line ∈ f.layout.last.lines, line.isPlain = true
  names : ∃ numbers : List Nat, f.placed = .entry :: numbers.map .numbered ∧ numbers.Nodup ∧
    ∀ n ∈ numbers, n ≤ labels ∧ ¬ free n
  taken : ∀ n, free n → n ≤ labels
  lines : ∀ line ∈ f.body, line.Ordinary
  slots_eq : f.slots.toList.map slotRow = rows
  results_perm : f.defined.Perm results
  distinct : results.Nodup
  temps : ∀ n ∈ results, n ≤ f.temps

namespace Disciplined

variable {labels : Nat} {free : Nat → Prop} {rows : List String} {results : List Nat} {f : OpenFunction}

/-- Nothing was built yet. -/
theorem empty (name : String) (returns : Ty) (params : List Ty) (hfree : ∀ n, free n → n ≤ labels) :
    Disciplined labels free [] [] { name, returns, params } where
  closed _ hb := absurd hb List.not_mem_nil
  last h := absurd h Bool.false_ne_true
  plain _ _ hline := absurd hline List.not_mem_nil
  names := ⟨[], rfl, List.nodup_nil, fun _ h => absurd h List.not_mem_nil⟩
  taken := hfree
  lines line hline := absurd hline (Array.not_mem_empty line)
  slots_eq := rfl
  results_perm := .refl _
  distinct := List.nodup_nil
  temps _ hn := absurd hn List.not_mem_nil

/-- More labels are taken, and those that are free are among the new ones. -/
theorem mono (h : f.Disciplined labels free rows results) {labels' : Nat} {free' : Nat → Prop} (hle : labels ≤ labels')
    (hbound : ∀ n, free' n → n ≤ labels') (hfree : ∀ n, n ≤ labels → free' n → free n) :
    f.Disciplined labels' free' rows results where
  __ := h
  taken := hbound
  names := by
    obtain ⟨numbers, hnames, hnodup, hnumbers⟩ := h.names
    exact ⟨numbers, hnames, hnodup, fun n hn =>
      ⟨(hnumbers n hn).1.trans hle, fun hn' => (hnumbers n hn).2 (hfree n (hnumbers n hn).1 hn')⟩⟩

/-- A label that is placed was taken, and it is free no more. -/
theorem of_placed (h : f.Disciplined labels free rows results) {n : Nat} (hn : .numbered n ∈ f.placed) :
    n ≤ labels ∧ ¬ free n := by
  obtain ⟨numbers, hnames, -, hnumbers⟩ := h.names
  rw [hnames, List.mem_cons] at hn
  obtain ⟨m, hm, heq⟩ := List.mem_map.mp (hn.resolve_left nofun)
  cases heq
  exact hnumbers n hm

/-- A block behind one that has its terminator. -/
theorem label (h : f.Disciplined labels free rows results) (hclosed : f.terminated = true) {n : Nat} (hn : n ≤ labels)
    (hnew : .numbered n ∉ f.placed) (hfree : ¬ free n) :
    Disciplined labels free rows results
      { f with body := f.body.push (.label (.numbered n)), block := .numbered n, terminated := false } := by
  have hlayout : layout { f with body := f.body.push (.label (.numbered n)), block := .numbered n, terminated := false } =
      f.layout.add (.label (.numbered n)) := layout_push _
  refine ⟨?_, nofun, ?_, ?_, h.taken, ?_, h.slots_eq, ?_, h.distinct, h.temps⟩
  · rw [hlayout]
    intro b hb
    rcases List.mem_append.mp hb with hb | hb
    · exact h.closed b hb
    · rw [List.mem_singleton.mp hb]
      exact h.last hclosed
  · rw [hlayout]
    exact fun _ line hline => absurd hline List.not_mem_nil
  · obtain ⟨numbers, hnames, hnodup, hnumbers⟩ := h.names
    have hfresh : n ∉ numbers := fun hmem => hnew (by
      rw [hnames]
      exact List.mem_cons_of_mem _ (List.mem_map_of_mem hmem))
    refine ⟨numbers ++ [n], ?_, ?_, ?_⟩
    · rw [placed, hlayout, Layout.names_label, ← placed, hnames, List.map_append]
      rfl
    · rw [List.nodup_append]
      exact ⟨hnodup, List.nodup_singleton n, fun m hm k hk => by
        rw [List.mem_singleton.mp hk]
        exact fun heq => hfresh (heq ▸ hm)⟩
    · intro m hm
      rcases List.mem_append.mp hm with hm | hm
      · exact hnumbers m hm
      · rw [List.mem_singleton.mp hm]
        exact ⟨hn, hfree⟩
  · intro line hline
    rcases Array.mem_push.mp hline with hline | rfl
    · exact h.lines line hline
    · exact Line.ordinary_label n
  · have hdefined : defined { f with body := f.body.push (.label (.numbered n)), block := .numbered n, terminated := false } =
        f.defined := by simp [defined, slotTemps, Line.temp?]
    rw [hdefined]
    exact h.results_perm

/-- A line that is not a label goes to the end of the block that is open. -/
theorem line (h : f.Disciplined labels free rows results) (hopen : f.terminated = false) (line : Line)
    (hlabel : line.isLabel = false) (hline : line.Ordinary) (hnew : ∀ n, line.temp? = some n → n ∉ results ∧ n ≤ f.temps) :
    Disciplined labels free rows (results ++ line.temp?.toList)
      { f with body := f.body.push line, terminated := !line.isPlain } := by
  have hlayout : layout { f with body := f.body.push line, terminated := !line.isPlain } = f.layout.add line := layout_push _
  refine ⟨?_, ?_, ?_, ?_, h.taken, ?_, h.slots_eq, ?_, ?_, ?_⟩
  · rw [hlayout, Layout.add_line _ hlabel]
    exact h.closed
  · rw [hlayout, Layout.add_line _ hlabel]
    intro hend
    cases line with
    | leave terminator => exact ⟨_, terminator, rfl, h.plain hopen⟩
    | label name => cases hlabel
    | _ => cases hend
  · rw [hlayout, Layout.add_line _ hlabel]
    intro hplain l hl
    rcases List.mem_append.mp hl with hl | hl
    · exact h.plain hopen l hl
    · rw [List.mem_singleton.mp hl]
      simpa using hplain
  · rw [placed, hlayout, Layout.names_line _ hlabel]
    exact h.names
  · intro l hl
    rcases Array.mem_push.mp hl with hl | rfl
    · exact h.lines l hl
    · exact hline
  · have hdefined : defined { f with body := f.body.push line, terminated := !line.isPlain } = f.defined ++ line.temp?.toList := by
      cases htemp : line.temp? <;> simp [defined, slotTemps, htemp]
    rw [hdefined]
    exact h.results_perm.append_right _
  · rw [List.nodup_append]
    refine ⟨h.distinct, ?_, fun m hm n hn => ?_⟩
    · cases line.temp? <;> simp
    · rintro rfl
      exact (hnew m (by simpa using hn)).1 hm
  · intro n hn
    rcases List.mem_append.mp hn with hn | hn
    · exact h.temps n hn
    · exact (hnew n (by simpa using hn)).2

/-- A slot is reserved. -/
theorem slot (h : f.Disciplined labels free rows results) (type : Ty) :
    Disciplined labels free (rows ++ [slotRow (f.temps + 1, type)]) (results ++ [f.temps + 1])
      { f with temps := f.temps + 1, slots := f.slots.push (f.temps + 1, type) } where
  closed := h.closed
  last := h.last
  plain := h.plain
  names := h.names
  taken := h.taken
  lines := h.lines
  slots_eq := by rw [Array.toList_push, List.map_append, h.slots_eq, List.map_singleton]
  results_perm := by
    have hdefined : defined { f with temps := f.temps + 1, slots := f.slots.push (f.temps + 1, type) } =
        f.slotTemps ++ [f.temps + 1] ++ f.body.toList.filterMap Line.temp? := by simp [defined, slotTemps]
    rw [hdefined, List.append_assoc]
    exact (List.perm_append_comm.append_left _).trans (by
      rw [← List.append_assoc]
      exact h.results_perm.append_right _)
  distinct := by
    rw [List.nodup_append]
    refine ⟨h.distinct, List.nodup_singleton _, fun m hm n hn => ?_⟩
    have := h.temps m hm
    rw [List.mem_singleton.mp hn]
    omega
  temps n hn := by
    show n ≤ f.temps + 1
    rcases List.mem_append.mp hn with hn | hn
    · exact (h.temps n hn).trans (Nat.le_succ _)
    · exact Nat.le_of_eq (List.mem_singleton.mp hn)

/-- A temporary is taken. -/
theorem temp (h : f.Disciplined labels free rows results) :
    Disciplined labels free rows results { f with temps := f.temps + 1 } where
  __ := h
  temps n hn := (h.temps n hn).trans (Nat.le_succ _)

/-- What comes behind a terminator is in a block of its own. -/
theorem opened (h : f.Disciplined labels free rows results) :
    (f.opened (labels + 1)).Disciplined (if f.terminated then labels + 1 else labels) free rows results := by
  rw [OpenFunction.opened]
  cases hterminated : f.terminated with
  | false => exact h
  | true =>
    have hwider : f.Disciplined (labels + 1) free rows results :=
      h.mono (Nat.le_succ _) (fun n hn => (h.taken n hn).trans (Nat.le_succ _)) fun _ _ hn => hn
    exact hwider.label hterminated (Nat.le_refl _) (fun hmem => Nat.not_succ_le_self _ (h.of_placed hmem).1)
      fun hn => Nat.not_succ_le_self _ (h.taken _ hn)

end Disciplined

theorem opened_terminated (f : OpenFunction) (n : Nat) : (f.opened n).terminated = false := by
  rw [opened]
  split
  · rfl
  · rename_i h
    exact Bool.eq_false_iff.mpr h

theorem opened_temps (f : OpenFunction) (n : Nat) : (f.opened n).temps = f.temps := by
  rw [opened]
  split <;> rfl

end OpenFunction

/-! ## Builders -/

/-- The discipline of the function that is open in a builder. -/
def Builder.Disciplined (free : Nat → Prop) (rows : List String) (results : List Nat) (b : Builder) : Prop :=
  ∃ f, b.function = some f ∧ f.Disciplined b.labels free rows results

namespace Builder.Disciplined

variable {free : Nat → Prop} {rows : List String} {results : List Nat} {b c : Builder}

theorem weaken (h : b.Disciplined free rows results) {free' : Nat → Prop} (hfree : ∀ n, free' n → free n) :
    b.Disciplined free' rows results := by
  obtain ⟨f, hf, h⟩ := h
  exact ⟨f, hf, h.mono (Nat.le_refl _) (fun n hn => h.taken n (hfree n hn)) fun n _ hn => hfree n hn⟩

/-- The rest of a module that is being built does not matter. -/
theorem still (h : b.Disciplined free rows results) (hfunction : c.function = b.function) (hlabels : c.labels = b.labels) :
    c.Disciplined free rows results := by
  obtain ⟨f, hf, h⟩ := h
  exact ⟨f, hfunction.trans hf, hlabels ▸ h⟩

end Builder.Disciplined

namespace Build

variable {free : Nat → Prop} {rows : List String} {results : List Nat} {b : Builder} {f : OpenFunction}

theorem opened_labels (hf : b.function = some f) : (opened b).labels = if f.terminated then b.labels + 1 else b.labels := by
  rw [opened, Builder.isTerminated, hf, Option.all_some]
  split <;> rfl

/-- A line that is not a label goes to a block that is open, and the block is closed behind a terminator. -/
theorem disciplined_line (hf : b.function = some f) (h : f.Disciplined b.labels free rows results) (line : Line)
    (hlabel : line.isLabel = false) (hline : line.Ordinary) (hnew : ∀ n, line.temp? = some n → n ∉ results ∧ n ≤ f.temps) :
    (((opened b).addLine line).modifyFunction fun g => { g with terminated := !line.isPlain }).Disciplined free rows
      (results ++ line.temp?.toList) := by
  have hopened := opened_function b hf
  refine ⟨{ f.opened (b.labels + 1) with body := (f.opened (b.labels + 1)).body.push line, terminated := !line.isPlain }, ?_, ?_⟩
  · simp only [Builder.modifyFunction, Builder.addLine, hopened, Option.map_some]
  · show OpenFunction.Disciplined (opened b).labels _ _ _ _
    rw [opened_labels hf]
    exact h.opened.line (f.opened_terminated _) line hlabel hline (by rwa [f.opened_temps])

/-- A line that control goes on behind. -/
theorem disciplined_push (hf : b.function = some f) (h : f.Disciplined b.labels free rows results) (line : Line)
    (hplain : line.isPlain = true) (hline : line.Ordinary) (hnew : ∀ n, line.temp? = some n → n ∉ results ∧ n ≤ f.temps) :
    (push line b).2.Disciplined free rows (results ++ line.temp?.toList) := by
  obtain ⟨g, hg, hdisciplined⟩ := disciplined_line hf h line (Line.isLabel_plain hplain) hline hnew
  rw [push_apply]
  refine ⟨g, ?_, hdisciplined⟩
  rw [← hg, hplain]
  simp [Builder.modifyFunction, Builder.addLine, opened_function b hf, f.opened_terminated]

theorem disciplined_effect (h : b.Disciplined free rows results) {instr : Instr} (hinstr : (Line.effect instr).Ordinary) :
    (effect instr b).2.Disciplined free rows results := by
  obtain ⟨f, hf, h⟩ := h
  have hpush := disciplined_push hf h (.effect instr) rfl hinstr nofun
  rwa [Line.temp?_effect, Option.toList_none, List.append_nil] at hpush

theorem disciplined_result (h : b.Disciplined free rows results) (type : Ty) {instr : Instr}
    (hinstr : (Line.effect instr).Ordinary) :
    ∃ n, (result type instr b).1 = ⟨type, .temp n⟩ ∧ (result type instr b).2.Disciplined free rows (results ++ [n]) := by
  obtain ⟨f, hf, h⟩ := h
  rw [result_apply type instr hf]
  refine ⟨f.temps + 1, rfl, disciplined_push (b := { b with function := some { f with temps := f.temps + 1 } }) rfl h.temp
    (.result (f.temps + 1) instr) rfl hinstr.1 ?_⟩
  rintro n ⟨⟩
  exact ⟨fun hmem => Nat.not_succ_le_self _ (h.temps _ hmem), Nat.le_refl _⟩

theorem disciplined_slot (h : b.Disciplined free rows results) (type : Ty) :
    ∃ n, (slot type b).1 = ⟨.ptr, .temp n⟩ ∧
      (slot type b).2.Disciplined free (rows ++ [slotRow (n, type)]) (results ++ [n]) := by
  obtain ⟨f, hf, h⟩ := h
  rw [slot_apply type hf]
  exact ⟨f.temps + 1, rfl, _, rfl, h.slot type⟩

theorem disciplined_terminate (h : b.Disciplined free rows results) {terminator : Terminator}
    (hterminator : (Line.leave terminator).Ordinary) : (terminate terminator b).2.Disciplined free rows results := by
  obtain ⟨f, hf, h⟩ := h
  have hline := disciplined_line hf h (.leave terminator) rfl hterminator nofun
  rw [Line.temp?_leave, Option.toList_none, List.append_nil] at hline
  rw [terminate_apply]
  exact hline

theorem disciplined_newLabel (h : b.Disciplined free rows results) :
    (newLabel b).2.Disciplined (fun n => free n ∨ n = b.labels + 1) rows results := by
  obtain ⟨f, hf, h⟩ := h
  refine ⟨f, hf, h.mono (Nat.le_succ _) ?_ ?_⟩
  · rintro n (hn | rfl)
    · exact (h.taken n hn).trans (Nat.le_succ _)
    · exact Nat.le_refl _
  · rintro n hle (hn | rfl)
    · exact hn
    · exact absurd hle (Nat.not_succ_le_self _)

theorem disciplined_placeLabel (h : b.Disciplined free rows results) {n : Nat} (hn : free n) :
    (placeLabel (.numbered n) b).2.Disciplined (fun k => free k ∧ k ≠ n) rows results := by
  obtain ⟨f, hf, h⟩ := h
  have hlabel : ∀ {g : OpenFunction}, g.Disciplined b.labels free rows results → g.terminated = true →
      OpenFunction.Disciplined b.labels (fun k => free k ∧ k ≠ n) rows results
        { g with body := g.body.push (.label (.numbered n)), block := .numbered n, terminated := false } :=
    fun hg hterminated =>
      (hg.mono (Nat.le_refl _) (fun k hk => hg.taken k hk.1) fun _ _ hk => hk.1).label hterminated (hg.taken n hn)
        (fun hmem => (hg.of_placed hmem).2 hn) fun hk => hk.2 rfl
  -- The block that was open gets a jump to the new one.
  cases hterminated : f.terminated with
  | true =>
    rw [placeLabel_closed hf hterminated]
    exact ⟨_, rfl, hlabel h hterminated⟩
  | false =>
    rw [placeLabel_open hf hterminated]
    have hbr := h.line hterminated (.leave (.br (.numbered n))) rfl (Line.ordinary_br _) nofun
    rw [Line.temp?_leave, Option.toList_none, List.append_nil] at hbr
    exact ⟨_, rfl, hlabel hbr rfl⟩

end Build

/-! ## Operations -/

namespace Operation

/-- What may be asked between the start and the end of a function: an instruction is no terminator and does not
end in a colon, and a terminator is one. -/
def Ordinary : Operation → Prop
  | effect instr | result _ instr => isTerminator instr.text = false ∧ instr.text.toList.getLast? ≠ some ':'
  | terminate terminator => isTerminator terminator.text = true
  | beginFunction _ _ _ | endFunction => False
  | _ => True

theorem ordinary_effect {instr : Instr} (h : isTerminator instr.text = false ∧ instr.text.toList.getLast? ≠ some ':') :
    (Line.effect instr).Ordinary :=
  ⟨h.1, by rw [isLabelLine, beq_eq_false_iff_ne.mpr h.2, Bool.false_and]⟩

end Operation

/-- The temporary that an answer names. -/
def Answer.temp? : Answer → Option Nat
  | .operand ⟨_, .temp number⟩ => some number
  | _ => none

/-- The line of a slot that was asked for. -/
def Operation.reservation? : Operation × Answer → Option String
  | (.slot type, .operand address) => some (indented (address.ref.text ++ " = alloca " ++ type.text))
  | _ => none

namespace Operation

open Build

variable {free : Nat → Prop} {rows : List String} {results : List Nat} {b : Builder}

/-- The discipline behind an operation and its answer: the labels that are free are a fresh one and those that
were not placed, and what was answered is one more slot or result. -/
def Leaves (free : Nat → Prop) (rows : List String) (results : List Nat) (operation : Operation) (answer : Answer)
    (b : Builder) : Prop :=
  b.Disciplined (fun n => (free n ∨ answer = .label (.numbered n)) ∧ operation ≠ .placeLabel (.numbered n))
    (rows ++ (reservation? (operation, answer)).toList) (results ++ answer.temp?.toList)

section

variable {operation : Operation} {answer : Answer}

/-- Most operations answer no label and no temporary. -/
theorem leaves_of_quiet (h : b.Disciplined free rows results) (hslot : reservation? (operation, answer) = none)
    (htemp : answer.temp? = none) (hlabel : ∀ n, answer ≠ .label (.numbered n)) :
    Leaves free rows results operation answer b := by
  rw [Leaves, hslot, htemp, Option.toList_none, Option.toList_none, List.append_nil, List.append_nil]
  exact h.weaken fun n hn => hn.1.resolve_right (hlabel n)

theorem leaves_result (h : b.Disciplined free rows results) {type : Ty} {instr : Instr} (hinstr : (Line.effect instr).Ordinary)
    (hslot : ∀ answer, reservation? (operation, answer) = none) :
    Leaves free rows results operation (.operand (Build.result type instr b).1) (Build.result type instr b).2 := by
  obtain ⟨n, hanswer, hdisciplined⟩ := disciplined_result h type hinstr
  rw [Leaves, hslot, hanswer, Option.toList_none, List.append_nil]
  exact hdisciplined.weaken fun k hk => hk.1.resolve_right nofun

end

/-- One operation. -/
theorem leaves_run (h : b.Disciplined free rows results) {operation : Operation} (hordinary : operation.Ordinary)
    (hplaced : ∀ label, operation = .placeLabel label → ∃ n, label = .numbered n ∧ free n) :
    Leaves free rows results operation (operation.run b).1 (operation.run b).2 := by
  cases operation with
  | defineStruct symbol fields => exact leaves_of_quiet (h.still rfl rfl) rfl rfl nofun
  | defineGlobal name constant value => exact leaves_of_quiet (h.still rfl rfl) rfl rfl nofun
  | string text =>
    obtain ⟨number, -, hanswer⟩ := string_number text b
    have hstill : (Build.string text b).2.function = b.function ∧ (Build.string text b).2.labels = b.labels := by
      rw [string_apply]
      cases b.strings.findIdx? (· == text) <;> exact ⟨rfl, rfl⟩
    refine leaves_of_quiet (h.still hstill.1 hstill.2) rfl ?_ nofun
    show Answer.temp? (.operand (Build.string text b).1) = none
    rw [hanswer]
    rfl
  | declare declaration =>
    refine leaves_of_quiet (Builder.Disciplined.still (c := (Build.declare declaration b).2) h ?_ ?_) rfl rfl nofun <;>
    · rw [Build.declare, modify_apply]
      dsimp only
      split <;> rfl
  | beginFunction name returns params => exact hordinary.elim
  | endFunction => exact hordinary.elim
  | newLabel =>
    have hlabel := disciplined_newLabel h
    rw [← List.append_nil rows, ← List.append_nil results] at hlabel
    refine hlabel.weaken fun n hn => hn.1.imp_right fun heq => ?_
    cases heq
    rfl
  | placeLabel label =>
    obtain ⟨n, rfl, hn⟩ := hplaced label rfl
    have hlabel := disciplined_placeLabel h hn
    rw [← List.append_nil rows, ← List.append_nil results] at hlabel
    exact hlabel.weaken fun k hk => ⟨hk.1.resolve_right nofun, fun heq => hk.2 (by rw [heq])⟩
  | effect instr => exact leaves_of_quiet (disciplined_effect h (ordinary_effect hordinary)) rfl rfl nofun
  | result type instr => exact leaves_result h (ordinary_effect hordinary) fun _ => rfl
  | terminate terminator => exact leaves_of_quiet (disciplined_terminate h hordinary) rfl rfl nofun
  | slot type =>
    obtain ⟨n, hanswer, hdisciplined⟩ := disciplined_slot h type
    show Leaves free rows results (.slot type) (.operand (Build.slot type b).1) (Build.slot type b).2
    rw [hanswer, Leaves]
    rw [slotRow_eq] at hdisciplined
    exact hdisciplined.weaken fun k hk => hk.1.resolve_right nofun
  | load type address => exact leaves_result h (Line.ordinary_load _ _) fun _ => rfl
  | store value address => exact leaves_of_quiet (disciplined_effect h (Line.ordinary_store _ _)) rfl rfl nofun
  | br label => exact leaves_of_quiet (disciplined_terminate h (Line.ordinary_br _)) rfl rfl nofun
  | condBr test yes no => exact leaves_of_quiet (disciplined_terminate h (Line.ordinary_condBr _ _ _)) rfl rfl nofun
  | ret value => exact leaves_of_quiet (disciplined_terminate h (Line.ordinary_ret _)) rfl rfl nofun
  | call returns callee args signature =>
    show Leaves free rows results _ (.operand (Build.call returns callee args signature b).1)
      (Build.call returns callee args signature b).2
    rw [Build.call]
    split
    · exact leaves_of_quiet (disciplined_effect h (Line.ordinary_call _ _ _)) rfl rfl nofun
    · exact leaves_result h (Line.ordinary_call _ _ _) fun _ => rfl

/-! ## Sequences of operations -/

theorem runAll_append (first second : List Operation) (b : Builder) :
    runAll (first ++ second) b =
      ((runAll first b).1 ++ (runAll second (runAll first b).2).1, (runAll second (runAll first b).2).2) := by
  induction first generalizing b with
  | nil => rfl
  | cons operation rest ih =>
    show (_ :: (runAll (rest ++ second) (operation.run b).2).1, (runAll (rest ++ second) (operation.run b).2).2) = _
    rw [ih]
    rfl

theorem length_runAll (operations : List Operation) (b : Builder) : (runAll operations b).1.length = operations.length := by
  induction operations generalizing b with
  | nil => rfl
  | cons operation rest ih => exact congrArg Nat.succ (ih _)

/-- Labels are not given back. -/
theorem labels_le_run (operation : Operation) (b : Builder) : b.labels ≤ (operation.run b).2.labels := by
  cases operation with
  | defineStruct _ _ | defineGlobal _ _ _ | beginFunction _ _ _ => exact Nat.le_refl _
  | string text => exact (grows_string b text).labels
  | declare declaration =>
    show b.labels ≤ (Build.declare declaration b).2.labels
    rw [Build.declare, modify_apply]
    dsimp only
    split <;> exact Nat.le_refl _
  | endFunction =>
    cases hf : b.function with
    | some f =>
      show b.labels ≤ (Build.endFunction b).2.labels
      rw [endFunction_apply hf]
    | none =>
      show b.labels ≤ (Build.endFunction b).2.labels
      simp [Build.endFunction, bind_apply, get_apply, modify_apply, Builder.isTerminated, hf]
  | newLabel => exact Nat.le_succ _
  | placeLabel label => exact (extends_placeLabel b label).labels
  | effect _ | store _ _ => exact (grows_effect b _).labels
  | result _ _ | load _ _ => exact (grows_result b _ _).labels
  | terminate _ | br _ | condBr _ _ _ | ret _ => exact (grows_terminate b _).labels
  | slot type => exact (grows_slot b type).labels
  | call returns callee args signature => exact (grows_call b _ _ _ _).labels

theorem labels_le_runAll (operations : List Operation) (b : Builder) : b.labels ≤ (runAll operations b).2.labels := by
  induction operations generalizing b with
  | nil => exact Nat.le_refl _
  | cons operation rest ih => exact (labels_le_run operation b).trans (ih _)

/-- A label that was handed out has a number that was taken. -/
theorem label_of_runAll {operations : List Operation} {b : Builder} {label : Label}
    (h : .label label ∈ (runAll operations b).1) : ∃ n, label = .numbered n ∧ n ≤ (runAll operations b).2.labels := by
  induction operations generalizing b with
  | nil => exact absurd h List.not_mem_nil
  | cons operation rest ih =>
    have hrun : (runAll (operation :: rest) b).1 = (operation.run b).1 :: (runAll rest (operation.run b).2).1 := rfl
    rw [hrun, List.mem_cons] at h
    rcases h with h | h
    · cases operation with
      | newLabel =>
        cases h
        exact ⟨b.labels + 1, rfl, labels_le_runAll rest (newLabel.run b).2⟩
      | _ => cases h
    · exact ih h

theorem filterMap_singleton {α β : Type} (f : α → Option β) (x : α) : [x].filterMap f = (f x).toList := by
  cases h : f x <;> simp [h]

/-- Operations one after another, by induction on their number. -/
theorem disciplined_runAll {told : List Answer} (h : b.Disciplined (fun n => .label (.numbered n) ∈ told) [] [])
    (htold : ∀ label, .label label ∈ told → ∃ n, label = .numbered n) {operations : List Operation}
    (hordinary : ∀ operation ∈ operations, operation.Ordinary)
    (hplaced : ∀ i label, operations[i]? = some (.placeLabel label) →
      .label label ∈ told ++ (runAll (operations.take i) b).1 ∧ .placeLabel label ∉ operations.take i) :
    (runAll operations b).2.Disciplined
      (fun n => .label (.numbered n) ∈ told ++ (runAll operations b).1 ∧ .placeLabel (.numbered n) ∉ operations)
      ((operations.zip (runAll operations b).1).filterMap reservation?)
      ((runAll operations b).1.filterMap Answer.temp?) := by
  induction operations using List.reverseRecOn with
  | nil => exact h.weaken fun n hn => (List.mem_append.mp hn.1).resolve_right List.not_mem_nil
  | append_singleton front operation ih =>
    have hfront := ih (fun op hop => hordinary op (List.mem_append_left _ hop)) fun i label hi => by
      have hlt : i < front.length := (List.getElem?_eq_some_iff.mp hi).1
      have htake : (front ++ [operation]).take i = front.take i := List.take_append_of_le_length (Nat.le_of_lt hlt)
      rw [← htake]
      exact hplaced i label (by rw [List.getElem?_append_left hlt, hi])
    have hlast : ∀ label, operation = .placeLabel label →
        .label label ∈ told ++ (runAll front b).1 ∧ .placeLabel label ∉ front := by
      rintro label rfl
      have := hplaced front.length label (by simp)
      rwa [List.take_left] at this
    have hstep := leaves_run hfront (hordinary operation (List.mem_append_right _ (List.mem_singleton_self _))) fun label hlabel => by
      obtain ⟨hmem, hnew⟩ := hlast label hlabel
      obtain ⟨n, rfl⟩ : ∃ n, label = .numbered n := by
        rcases List.mem_append.mp hmem with hmem | hmem
        · exact htold label hmem
        · obtain ⟨n, rfl, -⟩ := label_of_runAll hmem
          exact ⟨n, rfl⟩
      exact ⟨n, rfl, hmem, hnew⟩
    have hzip : ((front ++ [operation]).zip ((runAll front b).1 ++ [(operation.run (runAll front b).2).1])) =
        front.zip (runAll front b).1 ++ [(operation, (operation.run (runAll front b).2).1)] := by
      rw [List.zip_append (length_runAll front b).symm]
      rfl
    have hrun : runAll (front ++ [operation]) b =
        ((runAll front b).1 ++ [(operation.run (runAll front b).2).1], (operation.run (runAll front b).2).2) :=
      runAll_append front [operation] b
    rw [hrun]
    dsimp only
    rw [hzip, List.filterMap_append, List.filterMap_append, filterMap_singleton, filterMap_singleton]
    refine hstep.weaken fun n hn => ?_
    obtain ⟨hmem, hnew⟩ := hn
    rw [List.mem_append, not_or, List.mem_singleton] at hnew
    rw [← List.append_assoc, List.mem_append, List.mem_singleton] at hmem
    exact ⟨hmem.imp (fun hmem => ⟨hmem, hnew.1⟩) Eq.symm, fun heq => hnew.2 heq.symm⟩

end Operation

/-! ## Definitions -/

namespace Function

/-- The lines of a function between its head and its brace. -/
def inside (f : Function) : List String := f.lines.tail.dropLast

/-- The names of the results of a function, which stand in front of its slots and its instructions. -/
def resultNames (f : Function) : List String :=
  (f.slotTemps ++ f.body.toList.filterMap Line.temp?).map fun n => (Ref.temp n).text

/-- What is written of a function that some operations built, with what they answered. -/
structure Disciplined (f : Function) (operations : List Operation) (answers : List Answer) : Prop where
  /-- The lines of the slots that were asked for stand in the entry block, in front of all other lines. -/
  entry : ∃ rest, (blocksOf f.inside).head? =
    some ("entry:", (operations.zip answers).filterMap Operation.reservation? ++ rest)
  /-- Each block has one terminator, which is its last line. -/
  ends : ∀ block ∈ blocksOf f.inside, ∃ front last, block.2 = front ++ [last] ∧ isTerminator last = true ∧
    ∀ line ∈ front, isTerminator line = false
  /-- No two blocks have one label. -/
  labels : ((blocksOf f.inside).map (·.1)).Nodup
  /-- No two results have one name, and the names are those that were answered. -/
  results : f.resultNames.Nodup ∧
    f.resultNames.Perm ((answers.filterMap Answer.temp?).map fun n => (Ref.temp n).text)

end Function

/-- The line of a numbered label. -/
def labelText (n : Nat) : String := (Label.numbered n).text ++ ":"

theorem labelText_injective : Function.Injective labelText := by
  intro m n h
  have hname : "L" ++ toString m = "L" ++ toString n := (String.append_left_inj ":").mp h
  exact Nat.repr_injective ((String.append_right_inj _).mp hname)

theorem tempText_injective : Function.Injective fun n => (Ref.temp n).text := by
  intro m n h
  have hname : "%t" ++ toString m = "%t" ++ toString n := h
  exact Nat.repr_injective ((String.append_right_inj _).mp hname)

theorem entry_notMem_labels (numbers : List Nat) : "entry:" ∉ numbers.map labelText := by
  intro h
  obtain ⟨n, -, hn⟩ := List.mem_map.mp h
  have hhead := congrArg (·.toList.head?) hn
  simp [labelText, Label.text] at hhead

namespace OpenFunction

variable {labels : Nat} {free : Nat → Prop} {rows : List String} {results : List Nat} {f : OpenFunction}

theorem inside_definition (f : OpenFunction) :
    f.definition.inside = "entry:" :: f.slots.toList.map slotRow ++ f.code.toList.map Line.row := by
  show ("entry:" :: (f.slots.toList.map slotText ++ f.code.toList.map (·.text)).map indented ++ ["\x7d"]).dropLast = _
  rw [List.dropLast_concat, List.map_append, List.map_map, List.map_map]
  rfl

namespace Disciplined

/-- The code of a function that is closed. -/
theorem code (h : f.Disciplined labels free rows results) :
    Disciplined labels free rows results { f with body := f.code, terminated := true } := by
  cases hterminated : f.terminated with
  | true =>
    have hself : { f with body := f.code, terminated := true } = f := by
      rw [OpenFunction.code, if_pos hterminated, ← hterminated]
    rwa [hself]
  | false =>
    have hleave := h.line hterminated (.leave .unreachable) rfl Line.ordinary_unreachable nofun
    rw [Line.temp?_leave, Option.toList_none, List.append_nil] at hleave
    rwa [OpenFunction.code, hterminated, if_neg Bool.false_ne_true]

/-- The blocks of a function that is closed, as they are read. -/
theorem exists_blocksOf (h : f.Disciplined labels free rows results) :
    ∃ first rest, (Ir.layout f.code.toList).blocks = first :: rest ∧
      blocksOf f.definition.inside = ("entry:", rows ++ first.lines.map Line.row) :: rest.map Block.rows := by
  have hrows : ∀ row ∈ rows, isLabelLine row = false := by
    rw [← h.slots_eq]
    intro row hrow
    obtain ⟨slot, -, rfl⟩ := List.mem_map.mp hrow
    exact isLabelLine_slotRow slot
  rw [inside_definition, h.slots_eq]
  exact blocksOf_rows hrows _ fun line hline => h.code.lines line (Array.mem_toList_iff.mp hline)

/-- What is in a block is one of the lines of the function. -/
theorem ordinary_of_mem (h : f.Disciplined labels free rows results) {b : Block} (hb : b ∈ (Ir.layout f.code.toList).blocks)
    {line : Line} (hline : line ∈ b.lines) : line.Ordinary :=
  h.code.lines line (Array.mem_toList_iff.mp (mem_of_layout hb hline))

theorem ends_of_mem (h : f.Disciplined labels free rows results) {b : Block} (hb : b ∈ (Ir.layout f.code.toList).blocks) :
    b.Ends := by
  rcases List.mem_append.mp hb with hb | hb
  · exact h.code.closed b hb
  · rw [List.mem_singleton.mp hb]
    exact h.code.last rfl

/-- A block is read with one terminator, at its end, also behind lines of other kinds. -/
theorem ends_rows (h : f.Disciplined labels free rows results) {b : Block} (hb : b ∈ (Ir.layout f.code.toList).blocks)
    (before : List String) (hbefore : ∀ row ∈ before, isTerminator row = false) :
    ∃ front last, before ++ b.lines.map Line.row = front ++ [last] ∧ isTerminator last = true ∧
      ∀ line ∈ front, isTerminator line = false := by
  obtain ⟨lines, terminator, hlines, hplain⟩ := h.ends_of_mem hb
  have hordinary : ∀ line ∈ lines ++ [.leave terminator], line.Ordinary := fun line hline =>
    h.ordinary_of_mem hb (hlines ▸ hline)
  refine ⟨before ++ lines.map Line.row, (Line.leave terminator).row, by rw [hlines, List.map_append, List.append_assoc]; rfl,
    Line.isTerminator_leave (hordinary _ (List.mem_append_right _ (List.mem_singleton_self _))), fun row hrow => ?_⟩
  rcases List.mem_append.mp hrow with hrow | hrow
  · exact hbefore row hrow
  · obtain ⟨line, hline, rfl⟩ := List.mem_map.mp hrow
    exact Line.isTerminator_plain (hordinary line (List.mem_append_left _ hline)) (hplain line hline)

theorem isTerminator_rows (h : f.Disciplined labels free rows results) : ∀ row ∈ rows, isTerminator row = false := by
  rw [← h.slots_eq]
  intro row hrow
  obtain ⟨slot, -, rfl⟩ := List.mem_map.mp hrow
  exact isTerminator_slotRow slot

/-- The labels that are read: the entry's, and others with different numbers that were taken. -/
theorem exists_numbers (h : f.Disciplined labels free rows results) :
    ∃ numbers : List Nat, (blocksOf f.definition.inside).map (·.1) = "entry:" :: numbers.map labelText ∧
      numbers.Nodup ∧ ∀ n ∈ numbers, n ≤ labels := by
  obtain ⟨first, rest, hblocks, hread⟩ := h.exists_blocksOf
  obtain ⟨numbers, hnames, hnodup, hnumbers⟩ := h.code.names
  refine ⟨numbers, ?_, hnodup, fun n hn => (hnumbers n hn).1⟩
  have hrest : rest.map (·.name) = numbers.map .numbered := by
    have hall : (Ir.layout f.code.toList).blocks.map (·.name) = .entry :: numbers.map .numbered := hnames
    rw [hblocks] at hall
    exact (List.cons.inj hall).2
  rw [hread, List.map_cons, List.map_map]
  congr 1
  have htexts := congrArg (List.map fun name : Label => name.text ++ ":") hrest
  rwa [List.map_map, List.map_map] at htexts

/-- The definition of a function that was built with discipline. -/
theorem definition (h : f.Disciplined labels free rows results) :
    (∃ rest, (blocksOf f.definition.inside).head? = some ("entry:", rows ++ rest)) ∧
    (∀ block ∈ blocksOf f.definition.inside, ∃ front last, block.2 = front ++ [last] ∧ isTerminator last = true ∧
      ∀ line ∈ front, isTerminator line = false) ∧
    ((blocksOf f.definition.inside).map (·.1)).Nodup ∧
    f.definition.resultNames.Nodup ∧ f.definition.resultNames.Perm (results.map fun n => (Ref.temp n).text) := by
  obtain ⟨first, rest, hblocks, hread⟩ := h.exists_blocksOf
  obtain ⟨numbers, hlabels, hnodup, -⟩ := h.exists_numbers
  have hperm : f.definition.resultNames.Perm (results.map fun n => (Ref.temp n).text) := h.code.results_perm.map _
  refine ⟨⟨_, by rw [hread]; rfl⟩, ?_, ?_, ?_, hperm⟩
  · rw [hread, List.forall_mem_cons]
    refine ⟨h.ends_rows (hblocks ▸ List.mem_cons_self) _ h.isTerminator_rows, fun block hblock => ?_⟩
    obtain ⟨b, hb, rfl⟩ := List.mem_map.mp hblock
    exact h.ends_rows (hblocks ▸ List.mem_cons_of_mem _ hb) [] fun _ hrow => absurd hrow List.not_mem_nil
  · rw [hlabels, List.nodup_cons]
    exact ⟨entry_notMem_labels numbers, hnodup.map labelText_injective⟩
  · exact hperm.nodup_iff.mpr (h.distinct.map tempText_injective)

end Disciplined

end OpenFunction

/-! ## Built functions -/

namespace Operation

/-- The module that operations build. -/
def built (operations : List Operation) : Builder := (runAll operations {}).2

/-- What operations answer. -/
def answered (operations : List Operation) : List Answer := (runAll operations {}).1

theorem built_append (first second : List Operation) : built (first ++ second) = (runAll second (built first)).2 := by
  rw [built, runAll_append]
  rfl

/-- Operations up to the start of a function. -/
def opening (before : List Operation) (name : String) (returns : Ty) (params : List Ty) : List Operation :=
  before ++ [.beginFunction name returns params]

/-- At the start of a function the labels that were handed out are free. -/
theorem disciplined_opening (before : List Operation) (name : String) (returns : Ty) (params : List Ty) :
    (built (opening before name returns params)).Disciplined
      (fun n => .label (.numbered n) ∈ answered (opening before name returns params)) [] [] := by
  refine ⟨{ name, returns, params }, by rw [opening, built_append]; rfl, .empty name returns params fun n hn => ?_⟩
  obtain ⟨m, heq, hm⟩ := label_of_runAll hn
  cases heq
  exact hm

/-- The discipline behind the operations of a function. -/
theorem disciplined_built (before operations : List Operation) (name : String) (returns : Ty) (params : List Ty)
    (hordinary : ∀ operation ∈ operations, operation.Ordinary)
    (hplaced : ∀ i label, operations[i]? = some (.placeLabel label) →
      .label label ∈ answered (opening before name returns params ++ operations.take i) ∧
        .placeLabel label ∉ operations.take i) :
    ∃ free, (built (opening before name returns params ++ operations)).Disciplined free
      ((operations.zip (runAll operations (built (opening before name returns params))).1).filterMap reservation?)
      ((runAll operations (built (opening before name returns params))).1.filterMap Answer.temp?) := by
  rw [built_append]
  refine ⟨_, disciplined_runAll (disciplined_opening before name returns params) (fun label hlabel => ?_) hordinary
    fun i label hi => ?_⟩
  · obtain ⟨n, heq, -⟩ := label_of_runAll hlabel
    exact ⟨n, heq⟩
  · have hlabel := hplaced i label hi
    rwa [answered, runAll_append] at hlabel

end Operation

open Operation in
/-- Between the start and the end of a function, operations may come in any order. If the instructions are
ordinary, and labels are placed that were handed out before, each no more than once, the function that is
defined has the discipline, and none of its labels is handed out later. -/
theorem disciplined_endFunction (before operations : List Operation) (name : String) (returns : Ty) (params : List Ty)
    (hordinary : ∀ operation ∈ operations, operation.Ordinary)
    (hplaced : ∀ i label, operations[i]? = some (.placeLabel label) →
      .label label ∈ answered (opening before name returns params ++ operations.take i) ∧
        .placeLabel label ∉ operations.take i) :
    ∃ f : Function,
      (built (opening before name returns params ++ operations ++ [.endFunction])).module.definitions =
        (built (opening before name returns params ++ operations)).module.definitions.push f ∧
      f.Disciplined operations (runAll operations (built (opening before name returns params))).1 ∧
      ∀ later, (Build.newLabel (built (opening before name returns params ++ operations ++ [.endFunction] ++ later))).1.text
        ++ ":" ∉ (blocksOf f.inside).map (·.1) := by
  obtain ⟨free, f, hf, hdisciplined⟩ := disciplined_built before operations name returns params hordinary hplaced
  obtain ⟨hentry, hends, hlabels, hresults⟩ := hdisciplined.definition
  obtain ⟨numbers, htexts, -, hnumbers⟩ := hdisciplined.exists_numbers
  have hend : built (opening before name returns params ++ operations ++ [.endFunction]) =
      (Build.endFunction (built (opening before name returns params ++ operations))).2 := by
    rw [built_append]
    rfl
  refine ⟨f.definition, by rw [hend, Build.endFunction_apply hf], ⟨hentry, hends, hlabels, hresults⟩, fun later => ?_⟩
  -- Labels are numbered in the order in which they are taken.
  have hlater : (built (opening before name returns params ++ operations)).labels ≤
      (built (opening before name returns params ++ operations ++ [.endFunction] ++ later)).labels := by
    rw [built_append _ later, built_append _ [.endFunction]]
    exact (labels_le_runAll [.endFunction] _).trans (labels_le_runAll later _)
  rw [Build.newLabel_apply, htexts, List.mem_cons, not_or]
  refine ⟨fun heq => entry_notMem_labels [_] (List.mem_singleton.mpr heq.symm), fun hmem => ?_⟩
  obtain ⟨n, hn, heq⟩ := List.mem_map.mp hmem
  have hsame := labelText_injective heq
  have htaken := hnumbers n hn
  omega

open Operation in
/-- An instruction behind a terminator is in a block of its own, from which control goes on to a label that was
handed out before the function was started; a slot that is asked for there is reserved in the entry. -/
theorem disciplined_endFunction_reopened :
    ∃ f : Function,
      (built (opening [.newLabel] "f" .void [] ++ [.ret none, .effect (.verbatim "call void @g()"), .slot (.int 32),
        .placeLabel (.numbered 1)] ++ [.endFunction])).module.definitions = #[f] ∧
      f.lines = ["define void @\"f\"() \x7b", "entry:", "  %t1 = alloca i32", "  ret void", "L2:", "  call void @g()",
        "  br label %L1", "L1:", "  unreachable", "\x7d"] ∧
      f.Disciplined [.ret none, .effect (.verbatim "call void @g()"), .slot (.int 32), .placeLabel (.numbered 1)]
        [.nothing, .nothing, .operand ⟨.ptr, .temp 1⟩, .nothing] := by
  obtain ⟨f, hbuilt, hdisciplined, -⟩ := disciplined_endFunction [.newLabel]
    [.ret none, .effect (.verbatim "call void @g()"), .slot (.int 32), .placeLabel (.numbered 1)] "f" .void []
    (by
      simp only [List.forall_mem_cons]
      exact ⟨trivial, show isTerminator "call void @g()" = false ∧ "call void @g()".toList.getLast? ≠ some ':' by decide,
        trivial, trivial, List.forall_mem_nil _⟩)
    (by
      rintro (_ | _ | _ | _ | i) label hi
      · cases hi
      · cases hi
      · cases hi
      · cases hi
        exact ⟨List.mem_cons_self, by simp⟩
      · cases hi)
  have hlines : (built (opening [.newLabel] "f" .void [] ++ [.ret none, .effect (.verbatim "call void @g()"),
      .slot (.int 32), .placeLabel (.numbered 1)] ++ [.endFunction])).module.definitions.toList.map Function.lines =
        [["define void @\"f\"() \x7b", "entry:", "  %t1 = alloca i32", "  ret void", "L2:", "  call void @g()",
          "  br label %L1", "L1:", "  unreachable", "\x7d"]] := by
    decide +kernel
  have hone : (built (opening [.newLabel] "f" .void [] ++ [.ret none, .effect (.verbatim "call void @g()"),
      .slot (.int 32), .placeLabel (.numbered 1)])).module.definitions = #[] := rfl
  rw [hone] at hbuilt
  rw [hbuilt] at hlines
  exact ⟨f, hbuilt, (List.cons.inj hlines).1, hdisciplined⟩

end OwnLang.Ir
