import OwnLang.Proofs.Token.Reads

/-!
# Tokens tile their text

`Scans` follows a text from its start, one lexeme after another (`Lexeme.Reads`); `tokenize` is that
walk (`scans_tokensFrom`, `tokenize_of_scans`). What the walk has covered is tiled by its tokens
(`Scans.tiles`): each token stands for the piece of the text under its span, and what is between
them is blank or a comment. `tokenize_tiles` puts both together, with the texts that are refused.
-/

namespace OwnLang

open Lexeme

/-! ## Offsets -/

theorem byteWidth_eq (text : List Char) : byteWidth text = (String.ofList text).utf8ByteSize := by
  induction text with
  | nil => rfl
  | cons c text ih => simp [byteWidth, ih, String.ofList_cons]

theorem byteWidth_toList (text : String) : byteWidth text.toList = text.utf8ByteSize := by
  rw [byteWidth_eq, String.ofList_toList]

@[simp] theorem byteWidth_append (a b : List Char) : byteWidth (a ++ b) = byteWidth a + byteWidth b := by
  induction a with
  | nil => simp [byteWidth]
  | cons c a ih => simp [byteWidth, ih, Nat.add_assoc]

theorem byteWidth_pos {text : List Char} (h : text ≠ []) : 0 < byteWidth text := by
  obtain ⟨c, more, rfl⟩ := List.exists_cons_of_ne_nil h
  have hc := c.utf8Size_pos
  simp only [byteWidth]
  omega

/-! ## The walk -/

/-- A walk over `text`, lexeme by lexeme, has covered `covered`, with these tokens in it, and has
`rest` in front of it. -/
inductive Scans (file : String) (text : List Char) : List Char → List Token → List Char → Prop
  | start : Scans file text [] [] text
  | gap {covered piece rest : List Char} {tokens : List Token} :
    Scans file text covered tokens (piece ++ rest) → Reads .gap piece rest →
      Scans file text (covered ++ piece) tokens rest
  | token {covered piece rest : List Char} {tokens : List Token} {kind : TokenKind} {value : String} :
    Scans file text covered tokens (piece ++ rest) → Reads (.token kind value) piece rest →
      Scans file text (covered ++ piece)
        (tokens ++ [⟨kind, value, file, byteWidth covered, byteWidth (covered ++ piece)⟩]) rest

/-- The last token of a file. -/
def Token.final (file : String) (text : List Char) : Token := ⟨.eof, "EOF", .point file (byteWidth text)⟩

variable {file : String} {text : List Char}

namespace Scans

theorem splits {covered rest : List Char} {tokens : List Token} (h : Scans file text covered tokens rest) :
    text = covered ++ rest := by
  induction h with
  | start => rfl
  | gap _ _ ih => rw [ih, List.append_assoc]
  | token _ _ ih => rw [ih, List.append_assoc]

end Scans

theorem tokensFrom_gap {offset : Nat} {piece rest : List Char} (h : Reads .gap piece rest) :
    tokensFrom file offset (piece ++ rest) = tokensFrom file (offset + byteWidth piece) rest := by
  obtain ⟨c, more, rfl, hfound⟩ := first?_of_reads h
  rw [List.cons_append, tokensFrom]
  simp [hfound]

theorem tokensFrom_token {offset : Nat} {piece rest : List Char} {kind : TokenKind} {value : String}
    (h : Reads (.token kind value) piece rest) :
    tokensFrom file offset (piece ++ rest) =
      (tokensFrom file (offset + byteWidth piece) rest).map
        (⟨kind, value, file, offset, offset + byteWidth piece⟩ :: ·) := by
  obtain ⟨c, more, rfl, hfound⟩ := first?_of_reads h
  rw [List.cons_append, tokensFrom]
  simp [hfound]

theorem tokensFrom_unreadable {offset : Nat} {c : Char} {rest : List Char} (h : Unreadable (c :: rest)) :
    tokensFrom file offset (c :: rest) =
      .error ⟨.unrecognisedToken (String.singleton c), .point file offset, none⟩ := by
  rw [tokensFrom]
  simp [unreadable_iff.mp h]

/-- From wherever a walk is, reading goes on to the end of the text or to a place that no lexeme
starts at. -/
theorem scans_tokensFrom {covered rest : List Char} {tokens : List Token}
    (h : Scans file text covered tokens rest) :
    (∃ more, Scans file text text (tokens ++ more) [] ∧
        tokensFrom file (byteWidth covered) rest = .ok (more ++ [.final file text])) ∨
      ∃ before found c behind, Scans file text before found (c :: behind) ∧ Unreadable (c :: behind) ∧
        tokensFrom file (byteWidth covered) rest =
          .error ⟨.unrecognisedToken (String.singleton c), .point file (byteWidth before), none⟩ := by
  induction hlength : rest.length using Nat.strong_induction_on generalizing covered tokens rest with
  | _ length ih =>
  subst hlength
  cases rest with
  | nil =>
    have hcovered : covered = text := by simpa using h.splits.symm
    subst hcovered
    refine .inl ⟨[], by simpa using h, ?_⟩
    rw [tokensFrom_nil]
    rfl
  | cons c behind =>
    cases hfound : first? c behind with
    | none =>
      have hnone := unreadable_iff.mpr hfound
      exact .inr ⟨covered, tokens, c, behind, h, hnone, tokensFrom_unreadable hnone⟩
    | some found =>
      obtain ⟨lexeme, n⟩ := found
      obtain ⟨-, hreads⟩ := reads_of_first? hfound
      have hsplit : c :: behind = (c :: behind.take n) ++ behind.drop n := by simp
      generalize hpiece : c :: behind.take n = piece at hreads hsplit
      generalize hrest : behind.drop n = rest at hreads hsplit
      have hshorter : rest.length < (c :: behind).length := by
        simp only [← hrest, List.length_drop, List.length_cons]
        omega
      rw [hsplit] at h ⊢
      cases lexeme with
      | gap =>
        have hnext := ih _ hshorter (h.gap hreads) rfl
        rw [byteWidth_append] at hnext
        rwa [tokensFrom_gap hreads]
      | token kind value =>
        have hnext := ih _ hshorter (h.token hreads) rfl
        rw [byteWidth_append] at hnext
        rw [tokensFrom_token hreads]
        rcases hnext with ⟨more, hscans, hrun⟩ | ⟨before, tokens', c', behind', hscans, hnone, hrun⟩
        · rw [List.append_assoc] at hscans
          exact .inl ⟨_, hscans, by rw [hrun]; rfl⟩
        · exact .inr ⟨before, tokens', c', behind', hscans, hnone, by rw [hrun]; rfl⟩

/-- A walk is what `tokenize` does. -/
theorem tokenize_of_scans {text : String} {covered rest : List Char} {tokens : List Token}
    (h : Scans file text.toList covered tokens rest) :
    tokenize text file = (tokensFrom file (byteWidth covered) rest).map (tokens ++ ·) := by
  generalize htext : text.toList = chars at h
  have hstart : tokenize text file = tokensFrom file 0 chars := by rw [tokenize, htext]
  rw [hstart]
  induction h with
  | start =>
    show _ = (tokensFrom file 0 chars).map ([] ++ ·)
    cases tokensFrom file 0 chars <;> rfl
  | gap _ hreads ih => rw [ih, tokensFrom_gap hreads, byteWidth_append]
  | @token covered piece rest tokens kind value _ hreads ih =>
    rw [ih, tokensFrom_token hreads, byteWidth_append]
    cases tokensFrom file (byteWidth covered + byteWidth piece) rest <;> simp [Except.map]

/-! ## Reserved words -/

theorem lookup_keyword {word : String} {kind : TokenKind} (h : (word, kind) ∈ TokenKind.keywords) :
    TokenKind.keywords.lookup word = some kind := by
  have hall : ∀ p ∈ TokenKind.keywords, TokenKind.keywords.lookup p.1 = some p.2 := by decide
  exact hall _ h

/-- The kinds of reserved words are theirs alone. -/
theorem keyword_unique {word word' : String} {kind : TokenKind} (h : (word, kind) ∈ TokenKind.keywords)
    (h' : (word', kind) ∈ TokenKind.keywords) : word = word' := by
  have hall : ∀ p ∈ TokenKind.keywords, ∀ q ∈ TokenKind.keywords, p.2 = q.2 → p.1 = q.1 := by decide
  exact hall _ h _ h' rfl

theorem keyword_kind {word : String} {kind : TokenKind} (h : (word, kind) ∈ TokenKind.keywords) :
    kind ≠ .identifier ∧ kind ≠ .number ∧ kind ≠ .string ∧ kind ≠ .eof := by
  have hall : ∀ p ∈ TokenKind.keywords,
      p.2 ≠ .identifier ∧ p.2 ≠ .number ∧ p.2 ≠ .string ∧ p.2 ≠ .eof := by decide
  exact hall _ h

theorem keyword_word {word : String} {kind : TokenKind} (h : (word, kind) ∈ TokenKind.keywords) :
    ∃ c more, word.toList = c :: more ∧ startsWord c = true := by
  have hall : ∀ p ∈ TokenKind.keywords, ∃ c ∈ p.1.toList.head?, startsWord c = true := by
    simp [TokenKind.keywords]
    decide
  obtain ⟨c, hc, hstarts⟩ := hall _ h
  obtain ⟨more, hmore⟩ := List.head?_eq_some_iff.mp hc
  exact ⟨c, more, hmore, hstarts⟩

/-- A word is an identifier or reserved. -/
theorem ofWord_cases (text : String) :
    TokenKind.ofWord text = .identifier ∨ (text, TokenKind.ofWord text) ∈ TokenKind.keywords := by
  unfold TokenKind.ofWord
  cases hlookup : TokenKind.keywords.lookup text with
  | none => exact .inl rfl
  | some kind =>
    obtain ⟨before, after, hlist, -⟩ := List.lookup_eq_some_iff.mp hlookup
    exact .inr (by simp [hlist])

theorem ofWord_eq_keyword {text word : String} {kind : TokenKind} (h : (word, kind) ∈ TokenKind.keywords) :
    TokenKind.ofWord text = kind ↔ text = word := by
  constructor
  · rintro rfl
    exact keyword_unique ((ofWord_cases text).resolve_left (keyword_kind h).1) h
  · rintro rfl
    simp [TokenKind.ofWord, lookup_keyword h]

/-- Literals and the end of a file are no spellings. -/
theorem Lexeme.Spelling.kind_ne {kind : TokenKind} {piece : List Char} (h : Spelling kind piece) :
    kind ≠ .string ∧ kind ≠ .eof := by
  cases h with
  | @word c more starts continues =>
    rcases ofWord_cases (String.ofList (c :: more)) with hkind | hkeyword
    · rw [hkind]
      decide
    · exact (keyword_kind hkeyword).2.2
  | number starts continues => decide
  | punctuation listed =>
    have hall : ∀ p ∈ TokenKind.punctuation, p.2 ≠ .string ∧ p.2 ≠ .eof := by decide
    exact hall _ listed

/-- A spelling has the kind of a reserved word just if it is that word. -/
theorem Lexeme.Spelling.keyword_iff {kind kind' : TokenKind} {piece : List Char} {word : String}
    (h : Spelling kind piece) (hword : (word, kind') ∈ TokenKind.keywords) :
    kind = kind' ↔ String.ofList piece = word := by
  obtain ⟨c, more, htext, hstarts⟩ := keyword_word hword
  have hhead : ∀ {c' : Char} {more' : List Char}, piece = c' :: more' → startsWord c' = false →
      String.ofList piece ≠ word := by
    rintro c' more' rfl hc' rfl
    rw [String.toList_ofList, List.cons.injEq] at htext
    rw [htext.1, hstarts] at hc'
    cases hc'
  cases h with
  | word starts continues => exact ofWord_eq_keyword hword
  | number starts continues =>
    exact iff_of_false (keyword_kind hword).2.1.symm (hhead rfl (startsWord_of_isDigit starts))
  | punctuation listed =>
    obtain ⟨c', more', hpiece, hc'⟩ := symbolic_punctuation listed
    have hkinds : ∀ p ∈ TokenKind.punctuation, ∀ q ∈ TokenKind.keywords, p.2 ≠ q.2 := by decide
    exact iff_of_false (hkinds _ listed _ hword) (hhead hpiece hc'.word)

/-! ## The tiling -/

/-- A token stands for a piece of a text. -/
structure Token.Covers (t : Token) (file : String) (before piece after : List Char) : Prop where
  nonempty : piece ≠ []
  inside : t.kind ≠ .eof
  span : t.span = ⟨file, byteWidth before, byteWidth (before ++ piece)⟩
  /-- A string literal stands for its text without the escapes. -/
  literal : t.kind = .string →
    ∃ body, Quoted.Body body ∧ piece = '"' :: body ++ ['"'] ∧ t.value = String.ofList (Quoted.decode body)
  /-- Any other token is spelled by its piece of the text. -/
  spelling : t.kind ≠ .string → t.value = String.ofList piece ∧ Spelling t.kind piece
  /-- No longer spelling starts where the token starts. -/
  longest : Longest piece (piece ++ after)
  /-- Reserved words have their own kinds, and nothing else has one of these. -/
  keyword : ∀ word kind, (word, kind) ∈ TokenKind.keywords →
    (t.kind = kind ↔ t.kind ≠ .string ∧ t.value = word)

/-- The tokens of the part `covered` of a text. -/
structure Tiles (file : String) (text covered : List Char) (tokens : List Token) : Prop where
  covers : ∀ t ∈ tokens, ∃ before piece after, text = before ++ piece ++ after ∧
    t.Covers file before piece after ∧ byteWidth (before ++ piece) ≤ byteWidth covered
  ordered : tokens.Pairwise fun a b => a.span.stop ≤ b.span.start
  /-- A character under no token is in a run of blanks or in a comment, of which no token has a part. -/
  gaps : ∀ before c after, covered = before ++ c :: after →
    (∀ t ∈ tokens, ¬(t.span.start ≤ byteWidth before ∧ byteWidth before < t.span.stop)) →
      ∃ front piece behind, text = front ++ piece ++ behind ∧ Reads .gap piece behind ∧
        byteWidth front ≤ byteWidth before ∧ byteWidth before < byteWidth (front ++ piece) ∧
        byteWidth (front ++ piece) ≤ byteWidth covered ∧
        ∀ t ∈ tokens, t.span.stop ≤ byteWidth front ∨ byteWidth (front ++ piece) ≤ t.span.start

theorem covers_token {covered piece rest : List Char} {kind : TokenKind} {value : String}
    (h : Reads (.token kind value) piece rest) :
    Token.Covers ⟨kind, value, file, byteWidth covered, byteWidth (covered ++ piece)⟩ file covered piece rest := by
  cases h with
  | @literal body rest is =>
    refine ⟨by simp, by simp, rfl, fun _ => ⟨body, is, rfl, rfl⟩, fun hkind => absurd rfl hkind, ?_, ?_⟩
    · intro kind other hother hprefix
      obtain ⟨c, more, rfl, hclass⟩ := hother.cases_head
      obtain ⟨rfl, -⟩ := List.cons_prefix_cons.mp hprefix
      rcases hclass with ⟨hword, -⟩ | ⟨hdigit, -⟩ | hc
      · exact absurd hword (by decide)
      · exact absurd hdigit (by decide)
      · exact absurd rfl hc.quote
    · intro word kind hword
      exact iff_of_false (keyword_kind hword).2.2.1.symm fun h => h.1 rfl
  | @spelling _ _ _ is longest code =>
    obtain ⟨hstring, heof⟩ := is.kind_ne
    refine ⟨?_, heof, rfl, fun hkind => absurd hkind hstring, fun _ => ⟨rfl, is⟩, longest, ?_⟩
    · obtain ⟨c, more, rfl, -⟩ := is.cases_head
      exact List.cons_ne_nil _ _
    · intro word kind' hword
      simpa [hstring] using is.keyword_iff hword

theorem Lexeme.Reads.nonempty {lexeme : Lexeme} {piece rest : List Char} (h : Reads lexeme piece rest) : piece ≠ [] := by
  obtain ⟨c, more, rfl, -⟩ := first?_of_reads h
  exact List.cons_ne_nil _ _

/-- A character of a text is in its first part or in its second. -/
theorem append_eq_append_cons {a b before after : List Char} {c : Char} (h : a ++ b = before ++ c :: after) :
    (∃ more, a = before ++ c :: more) ∨ ∃ more, before = a ++ more ∧ b = more ++ c :: after := by
  rcases List.append_eq_append_iff.mp h with ⟨more, hbefore, hb⟩ | ⟨more, ha, hafter⟩
  · exact .inr ⟨more, hbefore, hb⟩
  · cases more with
    | nil => exact .inr ⟨[], by simpa using ha.symm, hafter.symm⟩
    | cons c' more =>
      cases hafter
      exact .inl ⟨more, ha⟩

theorem byteWidth_lt {covered before more : List Char} {c : Char} (h : covered = before ++ c :: more) :
    byteWidth before < byteWidth covered := by
  have hpos := byteWidth_pos (List.cons_ne_nil c more)
  rw [h, byteWidth_append]
  omega

theorem Tiles.stop_le {covered : List Char} {tokens : List Token} (h : Tiles file text covered tokens)
    {t : Token} (ht : t ∈ tokens) : t.span.stop ≤ byteWidth covered := by
  obtain ⟨before, piece, after, -, hcovers, hbound⟩ := h.covers t ht
  rwa [hcovers.span]

theorem Tiles.nonempty {covered : List Char} {tokens : List Token} (h : Tiles file text covered tokens)
    {t : Token} (ht : t ∈ tokens) : t.span.file = file ∧ t.span.start < t.span.stop := by
  obtain ⟨before, piece, after, -, hcovers, -⟩ := h.covers t ht
  have hpos := byteWidth_pos hcovers.nonempty
  rw [hcovers.span, byteWidth_append]
  exact ⟨rfl, Nat.lt_add_of_pos_right hpos⟩

/-- What a walk has covered is tiled by its tokens. -/
theorem Scans.tiles {covered rest : List Char} {tokens : List Token} (h : Scans file text covered tokens rest) :
    Tiles file text covered tokens := by
  induction h with
  | start =>
    refine ⟨by simp, by simp, fun before c after hsplit => ?_⟩
    simp at hsplit
  | @gap covered piece rest tokens hscans hreads ih =>
    refine ⟨fun t ht => ?_, ih.ordered, fun before c after hsplit hfree => ?_⟩
    · obtain ⟨before, here, after, htext, hcovers, hbound⟩ := ih.covers t ht
      exact ⟨before, here, after, htext, hcovers, hbound.trans (by simp)⟩
    rcases append_eq_append_cons hsplit with ⟨more, hcovered⟩ | ⟨more, rfl, hpiece⟩
    · obtain ⟨front, here, behind, htext, hgap, hfront, hhere, hbound, hapart⟩ := ih.gaps before c more hcovered hfree
      exact ⟨front, here, behind, htext, hgap, hfront, hhere, hbound.trans (by simp), hapart⟩
    · refine ⟨covered, piece, rest, by rw [hscans.splits, List.append_assoc], hreads, by simp, ?_, le_rfl,
        fun t ht => .inl (ih.stop_le ht)⟩
      have hmore := byteWidth_lt hpiece
      simp only [byteWidth_append]
      omega
  | @token covered piece rest tokens kind value hscans hreads ih =>
    have hpos := byteWidth_pos hreads.nonempty
    refine ⟨fun t ht => ?_, ?_, fun before c after hsplit hfree => ?_⟩
    · rcases List.mem_append.mp ht with ht | ht
      · obtain ⟨before, here, after, htext, hcovers, hbound⟩ := ih.covers t ht
        exact ⟨before, here, after, htext, hcovers, hbound.trans (by simp)⟩
      · rw [List.mem_singleton.mp ht]
        exact ⟨covered, piece, rest, by rw [hscans.splits, List.append_assoc], covers_token hreads, le_rfl⟩
    · refine List.pairwise_append.mpr ⟨ih.ordered, List.pairwise_singleton _ _, fun a ha b hb => ?_⟩
      rw [List.mem_singleton.mp hb]
      exact ih.stop_le ha
    rcases append_eq_append_cons hsplit with ⟨more, hcovered⟩ | ⟨more, rfl, hpiece⟩
    · obtain ⟨front, here, behind, htext, hgap, hfront, hhere, hbound, hapart⟩ :=
        ih.gaps before c more hcovered fun t ht => hfree t (List.mem_append_left _ ht)
      refine ⟨front, here, behind, htext, hgap, hfront, hhere, hbound.trans (by simp), fun t ht => ?_⟩
      rcases List.mem_append.mp ht with ht | ht
      · exact hapart t ht
      · rw [List.mem_singleton.mp ht]
        exact .inr hbound
    · -- the character is under the token that was read last
      have hmore := byteWidth_lt hpiece
      refine absurd ?_ (hfree _ (List.mem_append_right _ (List.mem_singleton_self _)))
      simp only [byteWidth_append]
      omega

/-- A file that can be read is tiled by its tokens, with one `eof` token behind them at the end of the
text; a file is refused just where a walk over its lexemes comes to a character that none starts
with, and the diagnostic names this character and its offset. -/
theorem tokenize_tiles (text file : String) :
    (∀ tokens, tokenize text file = .ok tokens →
      ∃ found, tokens = found ++ [⟨.eof, "EOF", file, text.utf8ByteSize, text.utf8ByteSize⟩] ∧
        Tiles file text.toList text.toList found) ∧
    ∀ d, tokenize text file = .error d ↔
      ∃ covered found c rest, Scans file text.toList covered found (c :: rest) ∧ Unreadable (c :: rest) ∧
        d = ⟨.unrecognisedToken (String.singleton c), .point file (byteWidth covered), none⟩ := by
  have hwalk := scans_tokensFrom (Scans.start : Scans file text.toList [] [] text.toList)
  have hstart : tokenize text file = tokensFrom file (byteWidth []) text.toList := rfl
  refine ⟨fun tokens htokens => ?_, fun d => ⟨fun hd => ?_, ?_⟩⟩
  · rw [hstart] at htokens
    rcases hwalk with ⟨found, hscans, hrun⟩ | ⟨_, _, _, _, _, _, hrun⟩
    · cases htokens.symm.trans hrun
      refine ⟨found, ?_, hscans.tiles⟩
      rw [← byteWidth_toList]
      rfl
    · cases htokens.symm.trans hrun
  · rw [hstart] at hd
    rcases hwalk with ⟨found, hscans, hrun⟩ | ⟨covered, found, c, rest, hscans, hnone, hrun⟩
    · cases hd.symm.trans hrun
    · cases hd.symm.trans hrun
      exact ⟨covered, found, c, rest, hscans, hnone, rfl⟩
  · rintro ⟨covered, found, c, rest, hscans, hnone, rfl⟩
    rw [tokenize_of_scans hscans, tokensFrom_unreadable hnone]
    rfl

/-- A comment that nothing closes is read as operators. -/
example : (tokenize "if/**/x/*" "a.own").toOption.map (·.map fun t => (t.kind, t.span.start, t.span.stop)) =
    some [(.kwIf, 0, 2), (.identifier, 6, 7), (.slash, 7, 8), (.star, 8, 9), (.eof, 9, 9)] := by
  cbv

end OwnLang
