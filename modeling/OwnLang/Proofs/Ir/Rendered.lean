import OwnLang.Ir.Text
import OwnLang.Proofs.Ir.Planned

/-!
# Reading the lines of a function

A function that is written out is read back here as a text: words that end in a colon are labels, and
what follows a label up to the next one is its block (`blocksOf`). A line is a terminator if its opcode is
one of those that end a block (`isTerminator`), wherever the line comes from.

The blocks that are read are those of the function (`blocksOf_rows`), if the lines do not look like
something else than what they are (`Line.Ordinary`).
-/

namespace OwnLang.Ir

/-! ## Lines of text -/

/-- Whether a line is a label: one word, with a colon behind it. -/
def isLabelLine (line : String) : Bool := line.toList.getLast? == some ':' && !line.toList.contains ' '

/-- The first word of a text. -/
def wordOf (text : List Char) : String := String.ofList ((text.dropWhile (· == ' ')).takeWhile (· != ' '))

/-- The opcode of an instruction, which may stand behind the name of its result. -/
def opcodeOf (line : String) : String :=
  let text := line.toList.dropWhile (· == ' ')
  if text.head? = some '%' then wordOf ((text.dropWhile (· != '=')).drop 1) else wordOf text

/-- The opcodes of the instructions that end a block. -/
def terminatorWords : List String :=
  ["ret", "br", "switch", "indirectbr", "invoke", "callbr", "resume", "catchswitch", "catchret", "cleanupret",
    "unreachable"]

/-- Whether a line ends a block. -/
def isTerminator (line : String) : Bool := terminatorWords.contains (opcodeOf line)

/-- The labels of some lines, each with the lines up to the next one. -/
def blocksOf : List String → List (String × List String)
  | [] => []
  | line :: rest =>
    if isLabelLine line then (line, rest.takeWhile (!isLabelLine ·)) :: blocksOf rest else blocksOf rest

theorem ne_of_mem_toString {n : Nat} {c : Char} (hc : c ∈ (toString n).toList) {d : Char} (hd : d.isDigit = false) : c ≠ d := by
  rw [Nat.toString_eq_ofList_toDigits, String.toList_ofList] at hc
  rintro rfl
  exact absurd (Nat.isDigit_of_mem_toDigits (by decide) (by decide) hc) (by rw [hd]; exact Bool.false_ne_true)

theorem isLabelLine_of_blank {line : String} (h : ' ' ∈ line.toList) : isLabelLine line = false := by
  rw [isLabelLine, List.contains_iff_mem.mpr h, Bool.not_true, Bool.and_false]

theorem wordOf_cons_blank (text : List Char) : wordOf (' ' :: text) = wordOf text := by
  simp [wordOf]

theorem opcodeOf_indented (line : String) : opcodeOf ("  " ++ line) = opcodeOf line := by
  simp [opcodeOf]

/-- The opcode of an instruction that has a result. -/
theorem opcodeOf_resultText (temp : Nat) (instr : String) : opcodeOf (resultText temp instr) = wordOf instr.toList := by
  have hdigits : ∀ c ∈ (toString temp).toList, (c != '=') = true := fun c hc =>
    bne_iff_ne.mpr (ne_of_mem_toString hc (by decide))
  have htext : (resultText temp instr).toList = ['%', 't'] ++ (toString temp).toList ++ ' ' :: '=' :: ' ' :: instr.toList := by
    simp [resultText, Ref.text]
  have hname : ∀ c ∈ ['%', 't'] ++ (toString temp).toList, (c != '=') = true := by
    simpa using hdigits
  have hblank : (['%', 't'] ++ (toString temp).toList ++ ' ' :: '=' :: ' ' :: instr.toList).dropWhile (· == ' ') =
      ['%', 't'] ++ (toString temp).toList ++ ' ' :: '=' :: ' ' :: instr.toList := rfl
  have hrest : ((['%', 't'] ++ (toString temp).toList ++ ' ' :: '=' :: ' ' :: instr.toList).dropWhile (· != '=')).drop 1 =
      ' ' :: instr.toList := by
    rw [List.dropWhile_append_of_pos hname]
    rfl
  rw [opcodeOf, htext]
  simp only [hblank]
  refine (if_pos rfl).trans ?_
  rw [hrest, wordOf_cons_blank]

/-- No terminator starts with the name of a result. -/
theorem not_terminator_of_percent {word : String} (h : word.toList.head? = some '%') : terminatorWords.contains word = false := by
  rw [← Bool.not_eq_true, List.contains_iff_mem]
  intro hmem
  have hwords : ∀ word ∈ terminatorWords, word.toList.head? ≠ some '%' := by decide
  exact hwords word hmem h

/-- An instruction that is no terminator is none behind the name of a result. -/
theorem isTerminator_resultText {temp : Nat} {instr : String} (h : isTerminator instr = false) :
    isTerminator (resultText temp instr) = false := by
  rw [isTerminator, opcodeOf_resultText]
  rw [isTerminator, opcodeOf] at h
  split at h
  · rename_i hpercent
    apply not_terminator_of_percent
    obtain ⟨rest, hrest⟩ := List.head?_eq_some_iff.mp hpercent
    rw [wordOf, hrest, String.toList_ofList]
    rfl
  · rwa [wordOf, List.dropWhile_idempotent, ← wordOf] at h

theorem wordOf_of_no_blank {text : List Char} (h : ' ' ∉ text) : wordOf text = String.ofList text := by
  have hdrop : text.dropWhile (· == ' ') = text := List.dropWhile_eq_self_iff.mpr fun hpos heq =>
    h ((beq_iff_eq.mp heq) ▸ List.getElem_mem hpos)
  have htake : text.takeWhile (· != ' ') = text := List.takeWhile_eq_self_iff.mpr fun c hc =>
    bne_iff_ne.mpr fun heq => h (heq ▸ hc)
  rw [wordOf, hdrop, htake]

/-- A terminator is no label. -/
theorem isLabelLine_of_terminator {line : String} (h : isTerminator line = true) : isLabelLine line = false := by
  by_cases hblank : ' ' ∈ line.toList
  · exact isLabelLine_of_blank hblank
  · -- Without blanks, the line ends with the opcode, and no opcode has a colon.
    have hopcode : ∃ front word, line.toList = front ++ word ∧ opcodeOf line = String.ofList word := by
      have hdrop : line.toList.dropWhile (· == ' ') = line.toList := List.dropWhile_eq_self_iff.mpr fun hpos heq =>
        hblank ((beq_iff_eq.mp heq) ▸ List.getElem_mem hpos)
      rw [opcodeOf, hdrop]
      split
      · obtain ⟨front, hfront⟩ := (List.drop_suffix 1 _).trans (List.dropWhile_suffix (l := line.toList) (· != '='))
        refine ⟨front, _, hfront.symm, wordOf_of_no_blank fun hmem => hblank ?_⟩
        rw [← hfront]
        exact List.mem_append_right _ hmem
      · exact ⟨[], _, rfl, wordOf_of_no_blank hblank⟩
    obtain ⟨front, word, hline, hword⟩ := hopcode
    rw [isTerminator, hword, List.contains_iff_mem] at h
    have hwords : ∀ word ∈ terminatorWords, word.toList ≠ [] ∧ word.toList.getLast? ≠ some ':' := by decide
    obtain ⟨hne, hlast⟩ := hwords _ h
    rw [String.toList_ofList] at hne hlast
    rw [isLabelLine, hline, List.getLast?_append_of_ne_nil _ hne, beq_eq_false_iff_ne.mpr hlast, Bool.false_and]

/-! ## Lines of functions -/

/-- A line as it stands in a function. -/
def Line.row (line : Line) : String := indented line.text

/-- A line does not look like something else than what it is. -/
def Line.Ordinary : Line → Prop
  | .label name => ' ' ∉ name.text.toList
  | .result _ instr => isTerminator instr.text = false
  | .effect instr => isTerminator instr.text = false ∧ isLabelLine instr.text = false
  | .leave terminator => isTerminator terminator.text = true

/-- Whether a line is indented does not matter to what it is. -/
theorem isTerminator_indented (line : String) : isTerminator (indented line) = isTerminator line := by
  rw [indented]
  split
  · rfl
  · rw [isTerminator, opcodeOf_indented, isTerminator]

theorem isLabelLine_indented {line : String} (h : isLabelLine line = false) : isLabelLine (indented line) = false := by
  rw [indented]
  split
  · exact h
  · exact isLabelLine_of_blank (by simp)

theorem isLabelLine_resultText (temp : Nat) (instr : String) : isLabelLine (resultText temp instr) = false :=
  isLabelLine_of_blank (by simp [resultText])

namespace Line

theorem row_label (name : Label) : (label name).row = name.text ++ ":" := by
  rw [row, text, indented, if_pos (by simp [List.getLast?_append])]

theorem isLabelLine_label {name : Label} (h : (label name).Ordinary) : isLabelLine (label name).row = true := by
  have hcontains : (name.text ++ ":").toList.contains ' ' = false := by
    rw [← Bool.not_eq_true, List.contains_iff_mem, String.toList_append]
    exact fun hmem => (List.mem_append.mp hmem).elim h (by decide)
  rw [row_label, isLabelLine, hcontains]
  simp [List.getLast?_append]

theorem isLabelLine_row {line : Line} (h : line.Ordinary) (hline : line.isLabel = false) : isLabelLine line.row = false := by
  apply isLabelLine_indented
  cases line with
  | label name => cases hline
  | result temp instr => exact isLabelLine_resultText temp instr.text
  | effect instr => exact h.2
  | leave terminator => exact isLabelLine_of_terminator h

/-- The terminators are those lines that read as such. -/
theorem isTerminator_plain {line : Line} (h : line.Ordinary) (hplain : line.isPlain = true) : isTerminator line.row = false := by
  rw [row, isTerminator_indented]
  cases line with
  | result temp instr => exact isTerminator_resultText h
  | effect instr => exact h.1
  | label name => cases hplain
  | leave terminator => cases hplain

theorem isTerminator_leave {terminator : Terminator} (h : (leave terminator).Ordinary) :
    isTerminator (leave terminator).row = true := by
  rwa [row, isTerminator_indented]

end Line

/-! ## Blocks of text -/

theorem blocksOf_eq_nil_iff {lines : List String} : blocksOf lines = [] ↔ ∀ line ∈ lines, isLabelLine line = false := by
  induction lines with
  | nil => simp [blocksOf]
  | cons line lines ih =>
    rw [blocksOf, List.forall_mem_cons, ← ih]
    cases isLabelLine line <;> simp

/-- A label ends the block in front of it. -/
theorem takeWhile_concat_label {lines : List String} {label : String} (h : isLabelLine label = true) :
    (lines ++ [label]).takeWhile (!isLabelLine ·) = lines.takeWhile (!isLabelLine ·) := by
  induction lines with
  | nil => simp [h]
  | cons line lines ih =>
    rw [List.cons_append, List.takeWhile_cons, List.takeWhile_cons, ih]

/-- What comes behind a label is not in the block in front of it. -/
theorem takeWhile_concat_of_label {lines : List String} (h : ∃ line ∈ lines, isLabelLine line = true) (line : String) :
    (lines ++ [line]).takeWhile (!isLabelLine ·) = lines.takeWhile (!isLabelLine ·) := by
  induction lines with
  | nil => simp at h
  | cons first lines ih =>
    rw [List.cons_append, List.takeWhile_cons, List.takeWhile_cons]
    cases hfirst : isLabelLine first with
    | true => rfl
    | false =>
      rw [ih ?_]
      obtain ⟨label, hmem, hlabel⟩ := h
      rcases List.mem_cons.mp hmem with rfl | hmem
      · exact absurd (hfirst.symm.trans hlabel) Bool.false_ne_true
      · exact ⟨label, hmem, hlabel⟩

theorem blocksOf_concat_label {lines : List String} {label : String} (h : isLabelLine label = true) :
    blocksOf (lines ++ [label]) = blocksOf lines ++ [(label, [])] := by
  induction lines with
  | nil => simp [blocksOf, h]
  | cons line lines ih =>
    rw [List.cons_append, blocksOf, blocksOf, ih, takeWhile_concat_label h]
    cases isLabelLine line <;> rfl

theorem blocksOf_concat_line {lines : List String} {line : String} (h : isLabelLine line = false)
    (before : List (String × List String)) {label : String} {block : List String}
    (hblocks : blocksOf lines = before ++ [(label, block)]) :
    blocksOf (lines ++ [line]) = before ++ [(label, block ++ [line])] := by
  induction lines generalizing before with
  | nil => exact absurd hblocks.symm (List.append_ne_nil_of_right_ne_nil _ (List.cons_ne_nil _ _))
  | cons first lines ih =>
    rw [List.cons_append, blocksOf]
    rw [blocksOf] at hblocks
    cases hfirst : isLabelLine first with
    | false =>
      rw [hfirst, if_neg Bool.false_ne_true] at hblocks
      rw [if_neg Bool.false_ne_true]
      exact ih _ hblocks
    | true =>
      rw [hfirst, if_pos rfl] at hblocks
      rw [if_pos rfl]
      -- The new line is in the block of the first label if there is no other one.
      rcases before with _ | ⟨head, before⟩
      · obtain ⟨hhead, hrest⟩ := List.cons.inj hblocks
        have hall := blocksOf_eq_nil_iff.mp hrest
        have htake : ∀ l ∈ lines ++ [line], (!isLabelLine l) = true := by
          simpa [or_imp, forall_and, h] using hall
        have hwhole : lines.takeWhile (!isLabelLine ·) = lines :=
          List.takeWhile_eq_self_iff.mpr fun l hl => htake l (List.mem_append_left _ hl)
        rw [hwhole] at hhead
        rw [List.takeWhile_eq_self_iff.mpr htake, blocksOf_eq_nil_iff.mpr fun l hl => by simpa using htake l hl]
        rw [Prod.mk.injEq] at hhead
        rw [hhead.1, hhead.2]
        rfl
      · obtain ⟨rfl, hrest⟩ := List.cons.inj hblocks
        have hlabel : ∃ l ∈ lines, isLabelLine l = true := by
          by_contra hnone
          have hnil : blocksOf lines = [] :=
            blocksOf_eq_nil_iff.mpr fun l hl => Bool.eq_false_iff.mpr fun heq => hnone ⟨l, hl, heq⟩
          rw [hnil] at hrest
          exact absurd hrest.symm (List.append_ne_nil_of_right_ne_nil _ (List.cons_ne_nil _ _))
        rw [ih _ hrest, takeWhile_concat_of_label hlabel]
        rfl

/-- A block as it stands in a function. -/
def Block.rows (b : Block) : String × List String := (b.name.text ++ ":", b.lines.map Line.row)

/-- The blocks that are read from the lines of a function are its blocks, the first with what stands in front of
the lines. -/
theorem blocksOf_rows {front : List String} (hfront : ∀ row ∈ front, isLabelLine row = false) (lines : List Line)
    (hlines : ∀ line ∈ lines, line.Ordinary) :
    ∃ first rest, (layout lines).blocks = first :: rest ∧
      blocksOf ("entry:" :: front ++ lines.map Line.row) = ("entry:", front ++ first.lines.map Line.row) :: rest.map Block.rows := by
  induction lines using List.reverseRecOn with
  | nil =>
    refine ⟨⟨.entry, []⟩, [], rfl, ?_⟩
    have hall : front.takeWhile (!isLabelLine ·) = front :=
      List.takeWhile_eq_self_iff.mpr fun row hrow => by rw [hfront row hrow]; rfl
    rw [List.map_nil, List.append_nil, blocksOf, if_pos (by decide), hall, blocksOf_eq_nil_iff.mpr hfront]
    simp
  | append_singleton lines line ih =>
    obtain ⟨first, rest, hblocks, hrows⟩ := ih fun l hl => hlines l (List.mem_append_left _ hl)
    have hline := hlines line (List.mem_append_right _ (List.mem_singleton_self line))
    have hlayout : layout (lines ++ [line]) = (layout lines).add line := by simp [layout]
    rw [List.map_append, ← List.append_assoc, hlayout]
    cases hlabel : line.isLabel with
    | true =>
      obtain ⟨name, rfl⟩ : ∃ name, line = .label name := by
        cases line with
        | label name => exact ⟨name, rfl⟩
        | _ => cases hlabel
      refine ⟨first, rest ++ [⟨name, []⟩], ?_, ?_⟩
      · show (layout lines).blocks ++ [_] = _
        rw [hblocks]
        rfl
      · rw [List.map_singleton, blocksOf_concat_label (Line.isLabelLine_label hline), hrows, Line.row_label]
        simp [Block.rows]
    | false =>
      have hrow := Line.isLabelLine_row hline hlabel
      rw [Layout.add_line _ hlabel]
      rw [Layout.blocks] at hblocks
      cases hclosed : (layout lines).closed with
      | nil =>
        rw [hclosed] at hblocks
        obtain ⟨hfirst, rfl⟩ := List.cons.inj hblocks
        refine ⟨_, [], rfl, ?_⟩
        rw [List.map_singleton, blocksOf_concat_line hrow [] hrows, ← hfirst]
        simp
      | cons b closed =>
        rw [hclosed] at hblocks
        obtain ⟨rfl, hrest⟩ := List.cons.inj hblocks
        obtain rfl : closed ++ [(layout lines).last] = rest := hrest
        refine ⟨b, closed ++ [⟨(layout lines).last.name, (layout lines).last.lines ++ [line]⟩], rfl, ?_⟩
        rw [List.map_append, List.map_singleton, ← List.cons_append] at hrows
        rw [List.map_singleton, blocksOf_concat_line hrow _ hrows]
        simp [Block.rows]

end OwnLang.Ir
