import OwnLang.Diagnostic.Report
import OwnLang.Proofs.Source.Lines

/-!
# Places and reports

What a source map and a report promise is said here in terms of the lines of a text (`Lined`) and of
its bytes, apart from how they are computed. `Place.Of` is the place of an offset. `Excerpt` is what a
report shows of a span: the place of its start, and of the lines from that of its start to that of its
end each as it is, behind its number, with `Carets` under the bytes that are in the span.

`SourceMap.place?` gives the place of every offset (`Lined.of_ofOffset`), in the order of the offsets
(`Lined.before_of_lt`), and `spanLines` the excerpt of every span of a known file that does not end
before it starts (`excerpt_spanLines`). Both together are `places_and_excerpts`.
-/

namespace OwnLang

/-! ## Places -/

namespace Place

/-- A place comes before another one. -/
def Before (p q : Place) : Prop := p.line < q.line ∨ p.line = q.line ∧ p.column < q.column

/-- The place of an offset of a text: its line is one more than the number of the line feeds before it,
and its column is counted from the start of this line. -/
structure Of (text : String) (lines : List String) (offset : Nat) (p : Place) : Prop where
  line : p.line = ((utf8 text).take offset).count lineFeed + 1
  lineStart : p.lineStart = startOf lines (p.line - 1)
  column_pos : 1 ≤ p.column
  column : p.lineStart + p.column - 1 = offset
  on_line : ∃ line, lines[p.line - 1]? = some line ∧ p.column ≤ line.utf8ByteSize + 1

end Place

namespace Lined

variable {text : String} {lines : List String}

theorem of_ofOffset (h : Lined text lines) {offset : Nat} (hoffset : offset ≤ text.utf8ByteSize) :
    Place.Of text lines offset (.ofOffset (utf8 text) offset) := by
  obtain ⟨i, k, hlies⟩ := h.exists_lies offset
  have hplace := hlies.ofOffset h
  have hcount : ((utf8 text).take offset).count Place.lineFeed + 1 = i + 1 := congrArg Place.line hplace
  obtain ⟨⟨line, hline, hk⟩, heq⟩ := hlies
  rw [Nat.min_eq_left hoffset] at heq
  rw [hplace]
  exact ⟨hcount.symm, rfl, Nat.le_add_left 1 k, heq.symm, line, hline, Nat.succ_le_succ hk⟩

theorem before_of_lt (h : Lined text lines) {m n : Nat} (hlt : m < n) (hn : n ≤ text.utf8ByteSize) :
    (Place.ofOffset (utf8 text) m).Before (.ofOffset (utf8 text) n) := by
  obtain ⟨i, k, hfirst⟩ := h.exists_lies m
  obtain ⟨j, l, hsecond⟩ := h.exists_lies n
  rw [hfirst.ofOffset h, hsecond.ofOffset h]
  rcases Nat.lt_or_eq_of_le (hfirst.line_le hsecond (Nat.le_of_lt hlt)) with hij | rfl
  · exact .inl (Nat.succ_lt_succ hij)
  · have := hfirst.offset
    have := hsecond.offset
    exact .inr ⟨rfl, Nat.succ_lt_succ (by omega)⟩

end Lined

namespace Report

/-! ## Carets -/

/-- Byte `k` of a line, which starts at offset `start` of its text, is in a span. -/
def Covers (span : Span) (line : String) (start k : Nat) : Prop :=
  k < line.utf8ByteSize ∧ span.start ≤ start + k ∧ start + k < span.stop

/-- The carets of a span under a line, which starts at offset `start` of a text of `size` bytes: they are
under the bytes of the line that are in the span. The last line has one in any case; if no byte of it is in
the span, it is where the span starts. -/
structure Carets (span : Span) (size : Nat) (line : String) (start : Nat) (last : Prop) (marks : String) : Prop where
  blank_or_caret : ∀ c ∈ marks.toList, c = ' ' ∨ c = '^'
  covered : ∀ k, Covers span line start k → marks.toList[k]? = some '^'
  only : ∀ k, marks.toList[k]? = some '^' → Covers span line start k ∨
    last ∧ (∀ j, ¬ Covers span line start j) ∧ k = min span.start size - start
  least : last → '^' ∈ marks.toList

@[simp] theorem length_copies (n : Nat) (c : Char) : (copies n c).length = n := by
  simp [copies]

theorem toList_copies (n : Nat) (c : Char) : (copies n c).toList = List.replicate n c := by
  simp [copies]

/-- In blanks and then carets the carets are behind the blanks. -/
theorem caret_iff (blanks carets k : Nat) :
    (copies blanks ' ' ++ copies carets '^').toList[k]? = some '^' ↔ blanks ≤ k ∧ k < blanks + carets := by
  rw [String.toList_append, toList_copies, toList_copies, List.getElem?_append, List.length_replicate,
    List.getElem?_replicate, List.getElem?_replicate]
  by_cases hk : k < blanks
  · simp [hk, Nat.not_le.mpr hk]
  · have hle : blanks ≤ k := Nat.not_lt.mp hk
    simp [hk, hle]
    omega

/-- The carets of a span are those from the first column of the bytes that are in it up to the last one. -/
theorem carets_copies {span : Span} {size : Nat} {line : String} {start first stop : Nat} (last : Prop) [Decidable last]
    (hcovers : ∀ k, Covers span line start k ↔ first ≤ k ∧ k < stop) (hfirst : first = min span.start size - start) :
    Carets span size line start last
      (copies first ' ' ++ copies ((if last then max stop (first + 1) else stop) - first) '^') where
  blank_or_caret := by
    intro c hc
    rw [String.toList_append, toList_copies, toList_copies, List.mem_append, List.mem_replicate, List.mem_replicate] at hc
    exact hc.imp And.right And.right
  covered k hk := by
    have hcolumns := (hcovers k).mp hk
    refine (caret_iff _ _ _).mpr ⟨hcolumns.1, ?_⟩
    split <;> omega
  only k hk := by
    obtain ⟨hle, hlt⟩ := (caret_iff _ _ _).mp hk
    by_cases hcovered : k < stop
    · exact .inl ((hcovers k).mpr ⟨hle, hcovered⟩)
    · split at hlt
      · rename_i hlast
        have hnone : ∀ j, ¬ Covers span line start j := fun j hj => by
          have := (hcovers j).mp hj
          omega
        exact .inr ⟨hlast, hnone, by omega⟩
      · omega
  least hlast := by
    rw [if_pos hlast]
    exact List.mem_of_getElem? ((caret_iff _ _ first).mpr (by omega))

/-! ## Excerpts -/

/-- The rows of line `n`: the line as it is behind its number, and under it the carets. -/
def LineRows (text : String) (lines : List String) (span : Span) (gutter n : Nat) (last : Prop) (rows : List String) : Prop :=
  ∃ line number marks, lines[n - 1]? = some line ∧
    number = toString n ++ copies (gutter - (toString n).length) ' ' ∧ number.length = gutter ∧
    Carets span text.utf8ByteSize line (startOf lines (n - 1)) last marks ∧
    rows = [number ++ "| " ++ line, copies gutter ' ' ++ "| " ++ marks]

/-- What a report shows of a span: the place of its start, and the lines from that of its start to that of
its end. -/
def Excerpt (sources : SourceMap) (span : Span) (rows : List String) : Prop :=
  ∃ text lines first last gutter, ∃ shown : Nat → List String,
    sources.text? span.file = some text ∧ Lined text lines ∧
    sources.place? span.file span.start = some first ∧ sources.place? span.file span.stop = some last ∧
    first.line ≤ last.line ∧
    (∀ n, first.line ≤ n → n ≤ last.line → LineRows text lines span gutter n (n = last.line) (shown n)) ∧
    rows = s!"-> {span.file}:{first.line}:{first.column}" :: (copies gutter ' ' ++ "|") ::
      (List.range' first.line (last.line + 1 - first.line)).flatMap shown

/-- A decimal number has at most as many digits as a larger one. -/
theorem length_toString_mono {m n : Nat} (h : m ≤ n) : (toString m).length ≤ (toString n).length := by
  have hpos : 0 < n.repr.length := Nat.length_repr_pos
  exact (Nat.length_repr_le_iff hpos).mpr (Nat.lt_of_le_of_lt h ((Nat.length_repr_le_iff hpos).mp (Nat.le_refl _)))

/-- The rows of line `n`, which is `line`, in a report on what is between two places. -/
def rowsOf (gutter : Nat) (start stop : Place) (n : Nat) (line : String) : List String :=
  let first := if n = start.line then start.column else 1
  sourceLine gutter n line first (if n = stop.line then max stop.column (first + 1) else line.utf8ByteSize + 1)

theorem sourceLines_cons {gutter : Nat} {start stop : Place} {n : Nat} (line : String) (rest : List String) :
    sourceLines gutter start stop n (line :: rest) =
      if stop.line < n then [] else rowsOf gutter start stop n line ++ sourceLines gutter start stop (n + 1) rest := rfl

/-- The lines from line `n` on are shown up to that of the end of the span. -/
theorem sourceLines_drop {gutter : Nat} {start stop : Place} {lines : List String} (hstop : stop.line ≤ lines.length)
    {n : Nat} (hn : 1 ≤ n) :
    sourceLines gutter start stop n (lines.drop (n - 1)) =
      (List.range' n (stop.line + 1 - n)).flatMap fun m => rowsOf gutter start stop m (lines[m - 1]?.getD "") := by
  induction hrest : stop.line + 1 - n generalizing n with
  | zero =>
    cases hdrop : lines.drop (n - 1) with
    | nil => rfl
    | cons line rest =>
      rw [sourceLines_cons, if_pos (by omega)]
      rfl
  | succ count ih =>
    have hlt : n - 1 < lines.length := by omega
    rw [List.drop_eq_getElem_cons hlt, sourceLines_cons, if_neg (by omega), List.range'_succ, List.flatMap_cons,
      List.getElem?_eq_getElem hlt, Option.getD_some, show n - 1 + 1 = n + 1 - 1 by omega, ih (by omega) (by omega)]

section

variable {sources : SourceMap} {text : String} {lines : List String} {span : Span}

/-- The bytes of line `m` that are in a span, from the lines and the columns of its ends. -/
theorem covers_iff (h : Lined text lines) {m i j k l : Nat} {line : String} (hline : lines[m]? = some line)
    (hstart : Lies text lines span.start i k) (hstop : Lies text lines span.stop j l) (him : i ≤ m) (hmj : m ≤ j) (b : Nat) :
    Covers span line (startOf lines m) b ↔ (if m = i then k else 0) ≤ b ∧ b < if m = j then l else line.utf8ByteSize := by
  have hinside := h.startOf_add_le hline
  have hnext := startOf_succ hline
  have hbefore : m ≠ i → startOf lines i + k < startOf lines m := fun hne => hstart.add_lt_startOf (by omega)
  have hbehind : m ≠ j → startOf lines (m + 1) ≤ startOf lines j := fun hne => startOf_mono lines (by omega)
  have hfirst := hstart.offset
  obtain ⟨⟨final, hfinal, hl⟩, hlast⟩ := hstop
  rw [Covers]
  by_cases hi : m = i <;> by_cases hj : m = j
  · subst hi hj
    obtain rfl : final = line := by simpa [hfinal] using hline
    simp only [if_true]
    omega
  · subst hi
    have := hbehind hj
    simp only [if_true, if_neg hj]
    omega
  · subst hj
    obtain rfl : final = line := by simpa [hfinal] using hline
    have := hbefore hi
    simp only [if_true, if_neg hi]
    omega
  · have := hbefore hi
    have := hbehind hj
    simp only [if_neg hi, if_neg hj]
    omega

/-- The first column of a line between the ends of a span. -/
theorem first_eq {m i k : Nat} (hstart : Lies text lines span.start i k) (him : i ≤ m) :
    (if m = i then k else 0) = min span.start text.utf8ByteSize - startOf lines m := by
  have hfirst := hstart.offset
  split
  · subst m
    omega
  · have := hstart.add_lt_startOf (show i < m by omega)
    omega

/-- The rows of a line between the ends of a span. -/
theorem lineRows_rowsOf (h : Lined text lines) {m i j k l : Nat} {line : String} (hline : lines[m]? = some line)
    (hstart : Lies text lines span.start i k) (hstop : Lies text lines span.stop j l) (him : i ≤ m) (hmj : m ≤ j) :
    LineRows text lines span ((toString (j + 1)).length + 1) (m + 1) (m + 1 = j + 1)
      (rowsOf ((toString (j + 1)).length + 1) ⟨i + 1, k + 1, startOf lines i⟩ ⟨j + 1, l + 1, startOf lines j⟩ (m + 1) line) := by
  have hdigits : (toString (m + 1)).length ≤ (toString (j + 1)).length := length_toString_mono (Nat.succ_le_succ hmj)
  refine ⟨line, _, _, hline, rfl, ?_,
    carets_copies (m + 1 = j + 1) (covers_iff h hline hstart hstop him hmj) (first_eq hstart him), ?_⟩
  · rw [String.length_append, length_copies]
    omega
  · -- The columns are counted from 1, and those of the carets from 0.
    simp only [rowsOf, sourceLine, padded, Nat.add_right_cancel_iff]
    have hfirst : (if m = i then k + 1 else 1) = (if m = i then k else 0) + 1 := by split <;> rfl
    have hlast : (if m = j then max (l + 1) ((if m = i then k else 0) + 1 + 1) else line.utf8ByteSize + 1) =
        (if m = j then max (if m = j then l else line.utf8ByteSize) ((if m = i then k else 0) + 1)
          else if m = j then l else line.utf8ByteSize) + 1 := by
      split
      · rw [Nat.add_max_add_right]
      · rfl
    simp only [hfirst, hlast, Nat.add_sub_add_right, Nat.add_sub_cancel, String.append_assoc]

/-- A report shows every span of a known file that does not end before it starts. -/
theorem excerpt_spanLines (htext : sources.text? span.file = some text) (hspan : span.start ≤ span.stop) :
    Excerpt sources span (spanLines sources span) := by
  have h := lined_linesOf text
  obtain ⟨i, k, hstart⟩ := h.exists_lies span.start
  obtain ⟨j, l, hstop⟩ := h.exists_lies span.stop
  have hij : i ≤ j := hstart.line_le hstop hspan
  have hlength : j + 1 ≤ (linesOf text).length := by
    obtain ⟨line, hline, -⟩ := hstop.on_line
    exact (List.getElem?_eq_some_iff.mp hline).1
  have hplace : ∀ offset, sources.place? span.file offset = some (.ofOffset (utf8 text) offset) := fun offset => by
    rw [SourceMap.place?, htext, Option.map_some]
  refine ⟨text, linesOf text, .ofOffset (utf8 text) span.start, .ofOffset (utf8 text) span.stop, (toString (j + 1)).length + 1,
    fun n => rowsOf ((toString (j + 1)).length + 1) (.ofOffset (utf8 text) span.start) (.ofOffset (utf8 text) span.stop) n
      ((linesOf text)[n - 1]?.getD ""), htext, h, hplace _, hplace _, ?_⟩
  rw [spanLines, htext]
  simp only [hstart.ofOffset h, hstop.ofOffset h]
  refine ⟨Nat.succ_le_succ hij, ?_, ?_⟩
  · rintro (_ | m) hin hnj
    · exact absurd hin (Nat.not_succ_le_zero i)
    · have hmj : m ≤ j := Nat.le_of_succ_le_succ hnj
      have hline := List.getElem?_eq_getElem (Nat.lt_of_le_of_lt hmj hlength)
      simp only [Nat.add_sub_cancel, hline, Option.getD_some]
      exact lineRows_rowsOf h hline hstart hstop (Nat.le_of_succ_le_succ hin) hmj
  · rw [sourceLines_drop hlength (Nat.le_add_left 1 i)]
    rfl

end

/-! ## Reports -/

/-- The first line of a diagnostic's report. -/
def headline (d : Diagnostic) : String :=
  d.cause.tip?.elim s!"Error: {d.message}" fun tip => s!"Error: {d.message} ({tip})"

/-- A span of a known file that does not end before it starts. -/
def Known (sources : SourceMap) (span : Span) : Prop :=
  (∃ text, sources.text? span.file = some text) ∧ span.start ≤ span.stop

theorem Known.excerpt {sources : SourceMap} {span : Span} (h : Known sources span) :
    Excerpt sources span (spanLines sources span) := by
  obtain ⟨⟨text, htext⟩, hspan⟩ := h
  exact excerpt_spanLines htext hspan

/-- What a diagnostic's report says of the second site. -/
def relatedLines (sources : SourceMap) (d : Diagnostic) : List String :=
  d.related.elim [] fun r => s!"{r.label}:" :: spanLines sources r.span

theorem diagnosticLines_eq (sources : SourceMap) (d : Diagnostic) :
    diagnosticLines sources d = headline d :: spanLines sources d.span ++ relatedLines sources d := by
  rw [diagnosticLines, headline, relatedLines]
  cases d.cause.tip? <;> cases d.related <;> rfl

end Report

/-- A source map finds the place of every offset of its files, and the places are ordered as the offsets
are. The reports of diagnostics and warnings show the excerpts of their spans. -/
theorem places_and_excerpts (sources : SourceMap) :
    (∀ file text, sources.text? file = some text → ∃ lines, Lined text lines ∧
      (∀ offset ≤ text.utf8ByteSize, ∃ p, sources.place? file offset = some p ∧ p.Of text lines offset) ∧
      ∀ m n p q, m < n → n ≤ text.utf8ByteSize → sources.place? file m = some p → sources.place? file n = some q →
        p.Before q) ∧
    (∀ d : Diagnostic, ∃ rows related, Report.ofDiagnostic sources d = Report.textOf (Report.headline d :: rows ++ related) ∧
      (Report.Known sources d.span → Report.Excerpt sources d.span rows) ∧ (d.related = none → related = []) ∧
      ∀ r, d.related = some r → ∃ more, related = s!"{r.label}:" :: more ∧
        (Report.Known sources r.span → Report.Excerpt sources r.span more)) ∧
    ∀ w : Warning, ∃ rows, Report.ofWarning sources w = Report.textOf (s!"Warning: {w.message}" :: rows) ∧
      (Report.Known sources w.span → Report.Excerpt sources w.span rows) := by
  refine ⟨fun file text htext => ?_, fun d => ?_, fun w => ?_⟩
  · have hlined := lined_linesOf text
    have hplace : ∀ offset, sources.place? file offset = some (.ofOffset (utf8 text) offset) := fun offset => by
      rw [SourceMap.place?, htext, Option.map_some]
    refine ⟨linesOf text, hlined, fun offset hoffset => ⟨_, hplace offset, hlined.of_ofOffset hoffset⟩, ?_⟩
    intro m n p q hlt hn hp hq
    rw [hplace, Option.some.injEq] at hp hq
    subst hp hq
    exact hlined.before_of_lt hlt hn
  · refine ⟨Report.spanLines sources d.span, Report.relatedLines sources d, ?_, Report.Known.excerpt, ?_, ?_⟩
    · rw [Report.ofDiagnostic, Report.diagnosticLines_eq]
    · intro hrelated
      rw [Report.relatedLines, hrelated]
      rfl
    · intro r hrelated
      rw [Report.relatedLines, hrelated]
      exact ⟨_, rfl, Report.Known.excerpt⟩
  · exact ⟨_, rfl, Report.Known.excerpt⟩

/-- A warning on two lines. -/
theorem places_and_excerpts_two_lines :
    Report.ofWarning ⟨[("test.own", "ab\ncd\n")]⟩ ⟨.unreachableCode, ⟨"test.own", 1, 4⟩⟩ =
        "Warning: Unreachable code\n-> test.own:1:2\n  |\n1 | ab\n  |  ^\n2 | cd\n  | ^\n" ∧
      ∃ rows, Report.textOf ("Warning: Unreachable code" :: rows) =
          "Warning: Unreachable code\n-> test.own:1:2\n  |\n1 | ab\n  |  ^\n2 | cd\n  | ^\n" ∧
        Report.Excerpt ⟨[("test.own", "ab\ncd\n")]⟩ ⟨"test.own", 1, 4⟩ rows := by
  have htext : Report.ofWarning ⟨[("test.own", "ab\ncd\n")]⟩ ⟨.unreachableCode, ⟨"test.own", 1, 4⟩⟩ =
      "Warning: Unreachable code\n-> test.own:1:2\n  |\n1 | ab\n  |  ^\n2 | cd\n  | ^\n" := by
    decide +kernel
  obtain ⟨rows, hrows, hexcerpt⟩ :=
    (places_and_excerpts ⟨[("test.own", "ab\ncd\n")]⟩).2.2 ⟨.unreachableCode, ⟨"test.own", 1, 4⟩⟩
  exact ⟨htext, rows, hrows.symm.trans htext, hexcerpt ⟨⟨_, rfl⟩, by decide⟩⟩

end OwnLang
