import OwnLang.Source.Map
import OwnLang.Proofs.Ir.Strings

/-!
# The lines of a text

The lines of a text are the texts without line feeds that are it again with a line feed between each
two (`Lined`), and `linesOf` finds them. Every offset of the text lies in a line or behind its last byte
(`Lined.exists_lies`), and `Place.ofOffset` finds this line, the offset in it and the offset at which it
starts (`Lies.ofOffset`). What holds of places is arithmetic from there on.
-/

namespace OwnLang

/-! ## Pieces -/

namespace piecesOf

variable (separator : Char)

theorem go_cons_of_ne {c : Char} (hc : c ≠ separator) (text : List Char) :
    ∃ piece pieces, go separator text = piece :: pieces ∧ go separator (c :: text) = (c :: piece) :: pieces := by
  obtain ⟨piece, pieces, h⟩ := List.exists_cons_of_ne_nil (go_ne_nil separator text)
  exact ⟨piece, pieces, h, by rw [go, if_neg hc, h]⟩

theorem intercalate_go (text : List Char) : [separator].intercalate (go separator text) = text := by
  induction text with
  | nil => rfl
  | cons c text ih =>
    by_cases hc : c = separator
    · rw [go, if_pos hc, List.intercalate_cons_of_ne_nil (go_ne_nil separator text), ih, hc]
      rfl
    · obtain ⟨piece, pieces, hgo, hcons⟩ := go_cons_of_ne separator hc text
      rw [hcons]
      rw [hgo] at ih
      cases pieces with
      | nil => rw [List.intercalate_singleton] at ih ⊢; rw [ih]
      | cons next pieces =>
        rw [List.intercalate_cons_cons] at ih ⊢
        rw [← ih]
        rfl

theorem separator_notMem_go (text : List Char) : ∀ piece ∈ go separator text, separator ∉ piece := by
  induction text with
  | nil => simp [go]
  | cons c text ih =>
    by_cases hc : c = separator
    · rw [go, if_pos hc]
      exact List.forall_mem_cons.mpr ⟨List.not_mem_nil, ih⟩
    · obtain ⟨piece, pieces, hgo, hcons⟩ := go_cons_of_ne separator hc text
      rw [hgo, List.forall_mem_cons] at ih
      rw [hcons]
      exact List.forall_mem_cons.mpr ⟨List.not_mem_cons_of_ne_of_not_mem (Ne.symm hc) ih.1, ih.2⟩

end piecesOf

/-- The lines of a text: with a line feed between each two they are the text, and none has one. -/
structure Lined (text : String) (lines : List String) : Prop where
  joined : "\n".intercalate lines = text
  free : ∀ line ∈ lines, '\n' ∉ line.toList
  nonempty : lines ≠ []

theorem lined_linesOf (text : String) : Lined text (linesOf text) where
  joined := by
    rw [← String.toList_inj, String.toList_intercalate, linesOf, piecesOf, List.map_map]
    rw [show String.toList ∘ String.ofList = id from funext fun _ => String.toList_ofList, List.map_id]
    exact piecesOf.intercalate_go '\n' text.toList
  free := by
    intro line hline
    obtain ⟨piece, hpiece, rfl⟩ := List.mem_map.mp hline
    rw [String.toList_ofList]
    exact piecesOf.separator_notMem_go '\n' text.toList piece hpiece
  nonempty := by
    rw [linesOf, piecesOf, Ne, List.map_eq_nil_iff]
    exact piecesOf.go_ne_nil '\n' text.toList

/-! ## Bytes -/

theorem utf8_append (s t : String) : utf8 (s ++ t) = utf8 s ++ utf8 t := by
  simp [utf8]

theorem length_utf8 (text : String) : (utf8 text).length = text.utf8ByteSize := by
  simp [utf8]

theorem utf8_lineFeed : utf8 "\n" = [Place.lineFeed] := by decide

/-- The bytes of a character that is not ASCII are none of ASCII's. -/
theorem le_toNat_of_mem_utf8EncodeChar {c : Char} (h : ¬ c.toNat < 128) {b : UInt8} (hb : b ∈ String.utf8EncodeChar c) :
    128 ≤ b.toNat := by
  have h : ¬ c.val.toNat ≤ 127 := by rw [Char.toNat_val]; omega
  rw [String.utf8EncodeChar] at hb
  simp only [if_neg h] at hb
  split at hb
  · simp only [List.mem_cons, List.not_mem_nil, or_false] at hb
    rcases hb with rfl | rfl <;> rw [UInt8.toNat_ofNat'] <;> omega
  · split at hb
    · simp only [List.mem_cons, List.not_mem_nil, or_false] at hb
      rcases hb with rfl | rfl | rfl <;> rw [UInt8.toNat_ofNat'] <;> omega
    · simp only [List.mem_cons, List.not_mem_nil, or_false] at hb
      rcases hb with rfl | rfl | rfl | rfl <;> rw [UInt8.toNat_ofNat'] <;> omega

/-- In UTF-8 the byte of a line feed stands for nothing else. -/
theorem lineFeed_mem_utf8EncodeChar {c : Char} : Place.lineFeed ∈ String.utf8EncodeChar c ↔ c = '\n' := by
  constructor
  · intro h
    by_cases hc : c.toNat < 128
    · rw [Ir.utf8EncodeChar_of_ascii hc, List.mem_singleton] at h
      have hnat := congrArg UInt8.toNat h
      rw [UInt8.toNat_ofNat'] at hnat
      have hten : Place.lineFeed.toNat = 10 := rfl
      exact Char.toNat_inj.mp (show c.toNat = 10 by omega)
    · exact absurd (le_toNat_of_mem_utf8EncodeChar hc h) (by decide)
  · rintro rfl
    decide

theorem lineFeed_mem_utf8 {text : String} : Place.lineFeed ∈ utf8 text ↔ '\n' ∈ text.toList := by
  rw [← String.ofList_toList (s := text), Ir.utf8_ofList, List.mem_flatMap, String.toList_ofList]
  simp only [lineFeed_mem_utf8EncodeChar, exists_eq_right]

/-! ## Places -/

namespace Place

/-- The place of an offset on a line, from the bytes of the lines before it. -/
theorem ofOffset_append {before line : List UInt8} {k : Nat} (rest : List UInt8) (hbefore : before = [] ∨ before.getLast? = some lineFeed)
    (hline : lineFeed ∉ line) (hk : k ≤ line.length) :
    ofOffset (before ++ (line ++ rest)) (before.length + k) = ⟨before.count lineFeed + 1, k + 1, before.length⟩ := by
  have htake : (before ++ (line ++ rest)).take (before.length + k) = before ++ line.take k := by
    rw [List.take_length_add_append, List.take_append_of_le_length hk]
  have hfree : lineFeed ∉ line.take k := fun h => hline (List.mem_of_mem_take h)
  have honLine : ((before ++ line.take k).reverse.takeWhile (· != lineFeed)) = (line.take k).reverse := by
    rw [List.reverse_append, List.takeWhile_append_of_pos]
    · rcases hbefore with rfl | hlast
      · simp
      · rw [List.getLast?_eq_some_iff] at hlast
        obtain ⟨front, rfl⟩ := hlast
        simp
    · intro b hb
      exact bne_iff_ne.mpr fun h => hfree (h ▸ List.mem_reverse.mp hb)
  have hlength : (line.take k).length = k := List.length_take_of_le hk
  rw [ofOffset]
  simp only [htake, honLine, List.count_append, List.count_eq_zero_of_not_mem hfree, List.length_reverse,
    List.length_append, hlength, Nat.add_zero, Nat.add_sub_cancel]

/-- An offset past the end of a text is taken to the end. -/
theorem ofOffset_min (bytes : List UInt8) (offset : Nat) :
    ofOffset bytes offset = ofOffset bytes (min offset bytes.length) := by
  rw [ofOffset, ofOffset, ← List.take_eq_take_min]

end Place

/-- The bytes of lines that a line feed ends each. -/
def endedBytes (lines : List String) : List UInt8 := lines.flatMap fun line => utf8 line ++ [Place.lineFeed]

/-- The offset of the first byte of line `i`, counted from 0. -/
def startOf (lines : List String) (i : Nat) : Nat := ((lines.take i).map (·.utf8ByteSize + 1)).sum

theorem length_endedBytes (lines : List String) (i : Nat) : (endedBytes (lines.take i)).length = startOf lines i := by
  simp only [endedBytes, startOf, List.length_flatMap, List.length_append, length_utf8, List.length_singleton]

theorem endedBytes_getLast? (lines : List String) : endedBytes lines = [] ∨ (endedBytes lines).getLast? = some Place.lineFeed := by
  rcases List.eq_nil_or_concat lines with rfl | ⟨front, line, rfl⟩
  · exact .inl rfl
  · right
    simp [endedBytes]

theorem startOf_succ {lines : List String} {i : Nat} {line : String} (h : lines[i]? = some line) :
    startOf lines (i + 1) = startOf lines i + line.utf8ByteSize + 1 := by
  simp [startOf, List.take_add_one, h, Nat.add_assoc]

theorem startOf_mono (lines : List String) {i j : Nat} (h : i ≤ j) : startOf lines i ≤ startOf lines j := by
  obtain ⟨k, rfl⟩ := Nat.exists_eq_add_of_le h
  simp [startOf, List.take_add]

/-- An offset of a text, or the end of the text if it is past it, is behind `k` bytes of line `i`. -/
structure Lies (text : String) (lines : List String) (offset i k : Nat) : Prop where
  on_line : ∃ line, lines[i]? = some line ∧ k ≤ line.utf8ByteSize
  offset : min offset text.utf8ByteSize = startOf lines i + k

namespace Lined

variable {text : String} {lines : List String}

theorem count_endedBytes (h : Lined text lines) {i : Nat} (hi : i ≤ lines.length) :
    (endedBytes (lines.take i)).count Place.lineFeed = i := by
  have hfree : ∀ front : List String, (∀ line ∈ front, '\n' ∉ line.toList) →
      (endedBytes front).count Place.lineFeed = front.length := by
    intro front
    induction front with
    | nil => intro; rfl
    | cons line front ih =>
      intro hline
      rw [List.forall_mem_cons] at hline
      rw [endedBytes, List.flatMap_cons, ← endedBytes, List.count_append, List.count_append, ih hline.2,
        List.count_eq_zero_of_not_mem fun hmem => hline.1 (lineFeed_mem_utf8.mp hmem)]
      simp [Nat.add_comm]
  rw [hfree _ fun line hline => h.free line (List.mem_of_mem_take hline), List.length_take_of_le hi]

theorem bytes_eq {i : Nat} {line : String} (h : Lined text lines) (hline : lines[i]? = some line) :
    ∃ rest, utf8 text = endedBytes (lines.take i) ++ (utf8 line ++ rest) := by
  rw [← h.joined]
  clear h
  induction lines generalizing i with
  | nil => simp at hline
  | cons first lines ih =>
    cases i with
    | zero =>
      obtain rfl : first = line := by simpa using hline
      cases lines with
      | nil => exact ⟨[], by simp [endedBytes]⟩
      | cons next lines =>
        rw [String.intercalate_cons_cons, utf8_append, utf8_append]
        exact ⟨_, by rw [List.append_assoc]; rfl⟩
    | succ i =>
      cases lines with
      | nil => simp at hline
      | cons next lines =>
        obtain ⟨rest, hrest⟩ := ih hline
        refine ⟨rest, ?_⟩
        rw [String.intercalate_cons_cons, utf8_append, utf8_append, hrest, utf8_lineFeed]
        simp only [endedBytes, List.take_succ_cons, List.flatMap_cons, List.append_assoc]

theorem exists_lies (h : Lined text lines) (offset : Nat) : ∃ i k, Lies text lines offset i k := by
  have hmin := Nat.min_le_right offset text.utf8ByteSize
  have hnonempty := h.nonempty
  suffices hlies : ∀ bound ≤ text.utf8ByteSize,
      ∃ i k line, lines[i]? = some line ∧ k ≤ line.utf8ByteSize ∧ bound = startOf lines i + k by
    obtain ⟨i, k, line, hline, hk, heq⟩ := hlies _ hmin
    exact ⟨i, k, ⟨line, hline, hk⟩, heq⟩
  intro bound hbound
  rw [← h.joined] at hbound
  clear h hmin
  induction lines generalizing bound with
  | nil => exact absurd rfl hnonempty
  | cons first lines ih =>
    by_cases hfirst : bound ≤ first.utf8ByteSize
    · exact ⟨0, bound, first, rfl, hfirst, by simp [startOf]⟩
    · -- The offset is behind the line feed of the first line, so there is a next line.
      cases lines with
      | nil => exact absurd (by simpa using hbound) hfirst
      | cons next lines =>
        rw [String.intercalate_cons_cons, String.utf8ByteSize_append, String.utf8ByteSize_append,
          show "\n".utf8ByteSize = 1 from rfl] at hbound
        obtain ⟨i, k, line, hline, hk, heq⟩ := ih (by simp) (bound - (first.utf8ByteSize + 1)) (by omega)
        refine ⟨i + 1, k, line, hline, hk, ?_⟩
        have hstart : startOf (first :: next :: lines) (i + 1) = first.utf8ByteSize + 1 + startOf (next :: lines) i := by
          simp [startOf]
        omega

/-- A line is in the text to its end. -/
theorem startOf_add_le (h : Lined text lines) {i : Nat} {line : String} (hline : lines[i]? = some line) :
    startOf lines i + line.utf8ByteSize ≤ text.utf8ByteSize := by
  obtain ⟨rest, hbytes⟩ := h.bytes_eq hline
  have hlength := congrArg List.length hbytes
  rw [List.length_append, List.length_append, length_utf8, length_utf8, length_endedBytes] at hlength
  omega

end Lined

namespace Lies

variable {text : String} {lines : List String} {m n i j k l : Nat}

/-- The place of an offset. -/
theorem ofOffset (h : Lies text lines n i k) (hlined : Lined text lines) :
    Place.ofOffset (utf8 text) n = ⟨i + 1, k + 1, startOf lines i⟩ := by
  obtain ⟨⟨line, hline, hk⟩, hoffset⟩ := h
  obtain ⟨rest, hbytes⟩ := hlined.bytes_eq hline
  have hfree : Place.lineFeed ∉ utf8 line := fun hmem =>
    hlined.free line (List.mem_of_getElem? hline) (lineFeed_mem_utf8.mp hmem)
  have hi : i ≤ lines.length := Nat.le_of_lt (List.getElem?_eq_some_iff.mp hline).1
  have hplace := Place.ofOffset_append rest (endedBytes_getLast? (lines.take i)) hfree (k := k) (by rwa [length_utf8])
  rwa [← hbytes, hlined.count_endedBytes hi, length_endedBytes, ← hoffset, ← length_utf8, ← Place.ofOffset_min] at hplace

theorem add_lt_startOf (h : Lies text lines n i k) (hij : i < j) : startOf lines i + k < startOf lines j := by
  obtain ⟨⟨line, hline, hk⟩, -⟩ := h
  have hnext := startOf_succ hline
  have hmono : startOf lines (i + 1) ≤ startOf lines j := startOf_mono lines hij
  omega

/-- A later offset is on no earlier line. -/
theorem line_le (hm : Lies text lines m i k) (hn : Lies text lines n j l) (hle : m ≤ n) : i ≤ j := by
  by_contra hlt
  have := hn.add_lt_startOf (Nat.lt_of_not_le hlt)
  have := hm.offset
  have := hn.offset
  omega

end Lies

end OwnLang
